import TinyNetwork.ConnectionLifecycle

/-! `state_` of one connection over its whole life, with every load and store of it a step
of its own. Any threads call `send` and `shutdown`; the loop thread establishes the
connection, handles its events, runs its functors and destroys it, and makes calls of
its own from callbacks. `shutdown` tests `state_` and stores `kDisconnecting` in a later
step, so a close that falls between the two is undone by the store, and by it alone. -/
namespace TinyNetwork.ConnectionTermination
open Transition MachineWord TcpConnection ConnectionOutput ConnectionLifecycle

/-- Where a thread is inside a call: past the load of `send` or `shutdown`, or past the
store of `shutdown`. -/
inductive Pc where
  | idle
  | sendChecked (message : List Byte)
  | shutdownChecked
  | shutdownSet
  deriving DecidableEq

inductive Destroying where
  | no
  | checked
  | stored
  deriving DecidableEq

structure State (Θ : Type*) where
  conn : TcpConnection
  functors : List Functor
  pc : Θ → Pc
  established : Bool
  destroying : Destroying

inductive Action (Θ : Type*) where
  | sendCheck (t : Θ) (message : List Byte)
  | sendRun (t : Θ) (answer : WriteResult)
  | shutdownCheck (t : Θ)
  | shutdownSet (t : Θ)
  | shutdownRun (t : Θ)
  | connectEstablished
  | doPendingFunctors
  | runFunctor (answer : WriteResult)
  | handleRead (read : Buffer.ReadResult)
  | handleWrite (answer : WriteResult)
  | handleClose
  | destroyCheck
  | destroyStore
  | destroyRemove

variable {Θ : Type*} [DecidableEq Θ] (loopThread : Θ)

def State.goto (s : State Θ) (t : Θ) (p : Pc) : State Θ :=
  { s with pc := Function.update s.pc t p }

def At (s : State Θ) (d : Destroying) : Prop :=
  s.established = true ∧ s.destroying = d ∧ s.pc loopThread = .idle

instance (s : State Θ) (d : Destroying) : Decidable (At loopThread s d) := by
  unfold At
  infer_instance

def Stores : Action Θ → Prop
  | .handleRead read => endOfFile read = true
  | .handleClose => True
  | .destroyStore => True
  | _ => False

instance (a : Action Θ) : Decidable (Stores a) := by
  cases a <;> unfold Stores <;> infer_instance

/-- The user's callbacks run where the model records their call; what they call are steps
of the loop thread. The server runs `connectEstablished` once and before everything
else the loop does with the connection. -/
def next (s : State Θ) : Action Θ → Option (State Θ)
  | .sendCheck t message =>
    if s.pc t = .idle ∧ (t = loopThread → s.destroying ≠ .checked) then
      some (if s.conn.state_ = .kConnected then s.goto t (.sendChecked message) else s)
    else none
  | .sendRun t answer =>
    match s.pc t with
    | .sendChecked message =>
      if t = loopThread then
        (s.conn.sendInLoop message answer).map fun c => { s.goto t .idle with conn := c }
      else some { s.goto t .idle with conn := s.conn.queueInLoop (.sendInLoop message) }
    | _ => none
  | .shutdownCheck t =>
    if s.pc t = .idle ∧ (t = loopThread → s.destroying ≠ .checked) then
      some (if s.conn.state_ = .kConnected then s.goto t .shutdownChecked else s)
    else none
  | .shutdownSet t =>
    if s.pc t = .shutdownChecked then
      some { s.goto t .shutdownSet with conn := s.conn.setState .kDisconnecting }
    else none
  | .shutdownRun t =>
    if s.pc t = .shutdownSet then
      some { s.goto t .idle with
        conn := if t = loopThread then s.conn.shutdownInLoop
          else s.conn.queueInLoop .shutdownInLoop }
    else none
  | .connectEstablished =>
    if s.established = false ∧ s.pc loopThread = .idle then
      (s.conn.connectEstablished []).map fun c => { s with conn := c, established := true }
    else none
  | .doPendingFunctors =>
    if At loopThread s .no ∧ s.functors = [] then
      some { s with
        functors := s.conn.pendingFunctors_
        conn := { s.conn with pendingFunctors_ := [] } }
    else none
  | .runFunctor answer =>
    if At loopThread s .no then
      match s.functors with
      | [] => none
      | f :: rest =>
        (s.conn.runFunctor answer [] f).map fun c => { s with conn := c, functors := rest }
    else none
  | .handleRead read =>
    if At loopThread s .no ∧ s.functors = [] then
      (s.conn.handleRead ⟨read, .wrote 0, [], []⟩).map fun c => { s with conn := c }
    else none
  | .handleWrite answer =>
    if At loopThread s .no ∧ s.functors = [] then
      some { s with conn := s.conn.handleWrite answer }
    else none
  | .handleClose =>
    if At loopThread s .no ∧ s.functors = [] then
      (s.conn.handleClose []).map fun c => { s with conn := c }
    else none
  | .destroyCheck =>
    if At loopThread s .no then
      some (if s.conn.state_ = .kConnected then { s with destroying := .checked }
        else { s with conn := s.conn.setChannel (s.conn.poller_.removeChannel s.conn.channel_) })
    else none
  | .destroyStore =>
    if At loopThread s .checked then
      let c := s.conn.setState .kDisconnected
      let c := c.setChannel (c.poller_.disableAll c.channel_)
      (c.connectionCallback []).map fun c => { s with conn := c, destroying := .stored }
    else none
  | .destroyRemove =>
    if At loopThread s .stored then
      some { s with
        conn := s.conn.setChannel (s.conn.poller_.removeChannel s.conn.channel_)
        destroying := .no }
    else none

def termination : System (State Θ) (Action Θ) where
  init s := s.functors = [] ∧ (∀ t, s.pc t = .idle) ∧ s.established = false ∧
    s.destroying = .no ∧ ∃ address sockfd poller wc hw mark,
      s.conn = construct address sockfd poller wc hw mark
  next := next loopThread

variable {s s' u : State Θ} {loopThread}

theorem next_path {a : Action Θ} (hn : next loopThread s a = some u) :
    (termination loopThread).Path Any s u :=
  System.Path.single trivial hn

/-- Uninterrupted, the steps of `connectDestroyed` are `TcpConnection::connectDestroyed`. -/
theorem connectDestroyed_steps (ready : At loopThread s .no) {c : TcpConnection}
    (hc : s.conn.connectDestroyed [] = some c) :
    ∃ u, (termination loopThread).Path Any s u ∧ u.conn = c ∧ u.destroying = .no := by
  unfold TcpConnection.connectDestroyed at hc
  by_cases connected : s.conn.state_ = .kConnected
  · rw [if_pos connected] at hc
    let b := { s with destroying := .checked }
    let d := { s with
      conn := ((s.conn.setState .kDisconnected).setChannel
        (s.conn.poller_.disableAll s.conn.channel_)).record (.connection false)
      destroying := .stored }
    have check : next loopThread s .destroyCheck = some b := by
      rw [next, if_pos ready, if_pos connected]
    have store : next loopThread b .destroyStore = some d := by
      rw [next, if_pos ⟨ready.1, rfl, ready.2.2⟩]
      rfl
    have remove := next_path (s := d) (a := .destroyRemove) (if_pos ⟨ready.1, rfl, ready.2.2⟩)
    exact ⟨_, ((next_path check).trans (next_path store)).trans remove, Option.some.inj hc, rfl⟩
  · rw [if_neg connected] at hc
    have check : next loopThread s .destroyCheck = some { s with
        conn := s.conn.setChannel (s.conn.poller_.removeChannel s.conn.channel_) } := by
      rw [next, if_pos ready, if_neg connected]
    exact ⟨_, next_path check, Option.some.inj hc, ready.2.1⟩

section Stability

/-- The connection is closed for good: no call of `shutdown` is between its test and its
store, and `connectEstablished` is past. -/
structure Settled (s : State Θ) : Prop where
  established : s.established = true
  state : s.conn.state_ = .kDisconnected
  quiet : ∀ t, s.pc t ≠ .shutdownChecked

theorem Settled.goto (h : Settled s) {t : Θ} {p : Pc} (quiet : p ≠ .shutdownChecked) :
    Settled (s.goto t p) := by
  refine ⟨h.established, h.state, fun v => ?_⟩
  by_cases same : v = t
  · subst same
    simpa [State.goto] using quiet
  · simpa [State.goto, same] using h.quiet v

omit [DecidableEq Θ] in
theorem Settled.conn (h : Settled s) {c : TcpConnection} (state : c.state_ = s.conn.state_) :
    Settled { s with conn := c } :=
  ⟨h.established, state.trans h.state, h.quiet⟩

theorem sendInLoop_disconnected {c : TcpConnection} (h : c.state_ = .kDisconnected)
    (data : List Byte) (answer : WriteResult) : c.sendInLoop data answer = some c := by
  rw [sendInLoop, if_pos h]

theorem shutdownInLoop_state (c : TcpConnection) : c.shutdownInLoop.state_ = c.state_ :=
  (shutdownInLoop_fields c).2.2.2

theorem handleWrite_state (c : TcpConnection) (answer : WriteResult) :
    (c.handleWrite answer).state_ = c.state_ := by
  by_cases writing : c.channel_.isWriting = true
  · cases answer with
    | failed errno =>
      unfold handleWrite
      rw [if_pos writing]
      rfl
    | wrote n =>
      by_cases some : 0 < n
      · rw [handleWrite_wrote writing some]
        split_ifs
        · exact (shutdownInLoop_state _).trans (drained_frame c n).state
        · exact (drained_frame c n).state
        · exact (moved_frame c n).state
      · unfold handleWrite
        dsimp only
        rw [if_pos writing, if_neg some]
        rfl
  · unfold handleWrite
    rw [if_neg writing]

theorem runFunctor_state {c c' : TcpConnection} {answer : WriteResult} {f : Functor}
    (hc : c.runFunctor answer [] f = some c') : c'.state_ = c.state_ := by
  cases f with
  | sendInLoop message => exact (sendInLoop_frame hc).state
  | shutdownInLoop => exact Option.some.inj hc ▸ shutdownInLoop_state c
  | writeCompleteCallback => exact Option.some.inj hc ▸ rfl
  | highWaterMarkCallback size => exact Option.some.inj hc ▸ rfl

theorem handleClose_state {c c' : TcpConnection} (hc : c.handleClose [] = some c') :
    c'.state_ = .kDisconnected :=
  Option.some.inj hc ▸ rfl

theorem handleRead_state {c c' : TcpConnection} {read : Buffer.ReadResult}
    (hc : c.handleRead ⟨read, .wrote 0, [], []⟩ = some c') :
    c'.state_ = if endOfFile read then .kDisconnected else c.state_ := by
  obtain ⟨⟨b, n, e⟩, hb, hc⟩ := Option.bind_eq_some_iff.mp hc
  have ends := readFd_positive hb
  dsimp only at hc
  split_ifs at hc with positive zero
  · have more : ¬endOfFile read = true := fun eof => by
      rw [ends.mpr eof] at positive
      exact absurd positive (lt_irrefl 0)
    rw [if_neg more, ← Option.some.inj hc]
    rfl
  · rw [if_pos (ends.mp zero)]
    exact handleClose_state hc
  · rw [if_neg fun eof => zero (ends.mpr eof), ← Option.some.inj hc]

theorem next_settled {a : Action Θ} (h : Settled s) (hn : next loopThread s a = some s') :
    Settled s' := by
  have closed : s.conn.state_ ≠ .kConnected := by simp [h.state]
  cases a with
  | sendCheck t message =>
    obtain ⟨-, rfl⟩ := guard_met hn
    rw [if_neg closed]
    exact h
  | sendRun t answer =>
    simp only [next] at hn
    split at hn
    case h_2 => cases hn
    case h_1 message _ =>
      have idle : Settled (s.goto t .idle) := h.goto (by decide)
      split_ifs at hn
      · obtain ⟨c, hc, rfl⟩ := Option.map_eq_some_iff.mp hn
        exact idle.conn (sendInLoop_frame hc).state
      · obtain rfl := Option.some.inj hn
        exact idle.conn rfl
  | shutdownCheck t =>
    obtain ⟨-, rfl⟩ := guard_met hn
    rw [if_neg closed]
    exact h
  | shutdownSet t =>
    obtain ⟨at_, -⟩ := guard_met hn
    exact absurd at_ (h.quiet t)
  | shutdownRun t =>
    obtain ⟨-, rfl⟩ := guard_met hn
    have idle : Settled (s.goto t .idle) := h.goto (by decide)
    split_ifs
    · exact idle.conn (shutdownInLoop_state s.conn)
    · exact idle.conn rfl
  | connectEstablished =>
    obtain ⟨⟨early, -⟩, -⟩ := Option.ite_none_right_eq_some.mp hn
    simp [h.established] at early
  | doPendingFunctors =>
    obtain ⟨-, rfl⟩ := guard_met hn
    exact ⟨h.established, h.state, h.quiet⟩
  | runFunctor answer =>
    obtain ⟨-, taken⟩ := Option.ite_none_right_eq_some.mp hn
    split at taken
    case h_1 => cases taken
    case h_2 f rest _ =>
      obtain ⟨c, hc, rfl⟩ := Option.map_eq_some_iff.mp taken
      exact ⟨h.established, (runFunctor_state hc).trans h.state, h.quiet⟩
  | handleRead read =>
    obtain ⟨-, taken⟩ := Option.ite_none_right_eq_some.mp hn
    obtain ⟨c, hc, rfl⟩ := Option.map_eq_some_iff.mp taken
    refine ⟨h.established, ?_, h.quiet⟩
    rw [handleRead_state hc, h.state]
    exact ite_self _
  | handleWrite answer =>
    obtain ⟨-, rfl⟩ := guard_met hn
    exact h.conn (handleWrite_state s.conn answer)
  | handleClose =>
    obtain ⟨-, taken⟩ := Option.ite_none_right_eq_some.mp hn
    obtain ⟨c, hc, rfl⟩ := Option.map_eq_some_iff.mp taken
    exact ⟨h.established, handleClose_state hc, h.quiet⟩
  | destroyCheck =>
    obtain ⟨-, rfl⟩ := guard_met hn
    rw [if_neg closed]
    exact h.conn rfl
  | destroyStore =>
    obtain ⟨-, taken⟩ := Option.ite_none_right_eq_some.mp hn
    obtain rfl := Option.some.inj taken
    exact ⟨h.established, rfl, h.quiet⟩
  | destroyRemove =>
    obtain ⟨-, rfl⟩ := guard_met hn
    exact ⟨h.established, h.state, h.quiet⟩

theorem next_stores {a : Action Θ} (stores : Stores a) (hn : next loopThread s a = some s') :
    s'.established = true ∧ s'.conn.state_ = .kDisconnected ∧ s'.pc = s.pc := by
  cases a with
  | handleRead read =>
    obtain ⟨⟨ready, -⟩, taken⟩ := Option.ite_none_right_eq_some.mp hn
    obtain ⟨c, hc, rfl⟩ := Option.map_eq_some_iff.mp taken
    exact ⟨ready.1, (handleRead_state hc).trans (if_pos stores), rfl⟩
  | handleClose =>
    obtain ⟨⟨ready, -⟩, taken⟩ := Option.ite_none_right_eq_some.mp hn
    obtain ⟨c, hc, rfl⟩ := Option.map_eq_some_iff.mp taken
    exact ⟨ready.1, handleClose_state hc, rfl⟩
  | destroyStore =>
    obtain ⟨ready, taken⟩ := Option.ite_none_right_eq_some.mp hn
    obtain rfl := Option.some.inj taken
    exact ⟨ready.1, rfl, rfl⟩
  | _ => exact absurd stores id

/-- When `handleClose` or `connectDestroyed` stores `kDisconnected`, the state stays
`kDisconnected` in every continuation, and every `sendInLoop` leaves the connection as it
is, exactly when no thread is between `shutdown`'s test of the state and its store. -/
theorem disconnected_terminal {a : Action Θ} (stores : Stores a)
    (hn : next loopThread s a = some s') :
    (∀ u, (termination loopThread).Path Any s' u → u.conn.state_ = .kDisconnected ∧
        ∀ data answer, u.conn.sendInLoop data answer = some u.conn) ↔
      ∀ t, s.pc t ≠ .shutdownChecked := by
  obtain ⟨established, state, pc⟩ := next_stores stores hn
  constructor
  · intro closed t checked
    have set : next loopThread s' (.shutdownSet t) =
        some { s'.goto t .shutdownSet with conn := s'.conn.setState .kDisconnecting } :=
      if_pos (pc ▸ checked)
    have undone := (closed _ (next_path set)).1
    simp [setState] at undone
  · intro quiet u run
    have settled : Settled u :=
      run.stable (P := Settled) (fun _ _ _ hs _ hn => next_settled hs hn)
        ⟨established, state, pc ▸ quiet⟩
    exact ⟨settled.state, sendInLoop_disconnected settled.state⟩

def sample : State Bool where
  conn := construct 1 7 EPollPoller.construct false false 64
  functors := []
  pc := fun _ => .idle
  established := false
  destroying := .no

theorem sample_initial : (termination true).init sample :=
  ⟨rfl, fun _ => rfl, rfl, rfl, 1, 7, _, false, false, 64, rfl⟩

def opened : State Bool :=
  { sample with
    conn := (sample.conn.connectEstablished []).getD sample.conn
    established := true }

theorem disconnected_terminal_close :
    ∃ s', next true opened .handleClose = some s' ∧
      ∀ u, (termination true).Path Any s' u → u.conn.state_ = .kDisconnected ∧
        ∀ data answer, u.conn.sendInLoop data answer = some u.conn := by
  have idle : ∀ t, opened.pc t ≠ .shutdownChecked := fun t => by simp [opened, sample]
  have stores : Stores (.handleClose : Action Bool) := trivial
  exact ⟨_, rfl, (disconnected_terminal stores rfl).mpr idle⟩

/-- `handleClose` falls between the test and the store of a `shutdown`: the connection is
`kDisconnecting` again, and a queued `sendInLoop` writes to the descriptor and puts the
channel back into the epoll set. -/
theorem disconnected_undone :
    ∃ s' u : State Bool, (termination true).Reachable Any s' ∧
      (s'.conn.state_, s'.conn.trace, s'.conn.poller_.watches 7) =
        (.kDisconnected, [.connection true, .connection false, .close], false) ∧
      (termination true).Path Any s' u ∧
      (u.conn.state_, u.conn.trace, u.conn.poller_.watches 7) =
        (.kDisconnecting, [.connection true, .connection false, .close, .write [1]], true) := by
  have run : (((termination true).execute Any sample
      [.connectEstablished, .sendCheck false [1, 2], .sendRun false (.wrote 0),
        .shutdownCheck false, .handleClose]).bind fun s' =>
      ((termination true).execute Any s'
        [.shutdownSet false, .doPendingFunctors, .runFunctor (.wrote 1)]).map fun u =>
        ((s'.conn.state_, s'.conn.trace, s'.conn.poller_.watches 7),
          (u.conn.state_, u.conn.trace, u.conn.poller_.watches 7))) =
      some ((.kDisconnected, [.connection true, .connection false, .close], false),
        (.kDisconnecting, [.connection true, .connection false, .close, .write [1]], true)) := by
    decide +kernel
  obtain ⟨s', closed, later⟩ := Option.bind_eq_some_iff.mp run
  obtain ⟨u, undone, ends⟩ := Option.map_eq_some_iff.mp later
  rw [Prod.mk.injEq] at ends
  exact ⟨s', u, (System.Reachable.initial sample_initial).path (System.Path.of_execute closed),
    ends.1, System.Path.of_execute undone, ends.2⟩

end Stability

end TinyNetwork.ConnectionTermination

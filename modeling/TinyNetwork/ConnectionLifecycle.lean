import TinyNetwork.ConnectionOutput

/-! The lifecycle of one connection as user code sees it: `connectionCallback_` with
`connected()` true, then with `connected()` false, and `closeCallback_`. The system
runs a connection from its construction through `connectEstablished`, events of
its descriptor, calls of `send` and `shutdown` from any thread, queued functors
and `connectDestroyed`. The phases of a connection (fresh, live, closed) count the
callbacks made so far. -/
namespace TinyNetwork.ConnectionLifecycle
open Transition MachineWord TcpConnection EPollPoller ConnectionOutput

def ups (trace : List Event) : ℕ := trace.count (.connection true)
def downs (trace : List Event) : ℕ := trace.count (.connection false)
def closes (trace : List Event) : ℕ := trace.count .close

def isAnnouncement : Event → Bool
  | .connection _ => true
  | .close => true
  | _ => false

def announced (c : TcpConnection) : ℕ × ℕ × ℕ := (ups c.trace, downs c.trace, closes c.trace)

theorem announced_silent {c c' : TcpConnection} {events : List Event}
    (h : c'.trace = c.trace ++ events) (silent : ∀ e ∈ events, isAnnouncement e = false) :
    announced c' = announced c := by
  have absent : ∀ e, isAnnouncement e = true → events.count e = 0 := by
    intro e he
    refine List.count_eq_zero.mpr fun mem => ?_
    simp [silent e mem] at he
  simp only [announced, ups, downs, closes, h, List.count_append]
  rw [absent _ rfl, absent _ rfl, absent _ rfl]
  rfl

section Record
variable {c : TcpConnection} {up down close : ℕ} (h : announced c = (up, down, close))
include h

theorem announced_up : announced (c.record (.connection true)) = (up + 1, down, close) := by
  simp only [announced, ups, downs, closes, Prod.mk.injEq] at h ⊢
  simp [record, h]

theorem announced_down : announced (c.record (.connection false)) = (up, down + 1, close) := by
  simp only [announced, ups, downs, closes, Prod.mk.injEq] at h ⊢
  simp [record, h]

theorem announced_close : announced (c.record .close) = (up, down, close + 1) := by
  simp only [announced, ups, downs, closes, Prod.mk.injEq] at h ⊢
  simp [record, h]

end Record

def Open (c : TcpConnection) : Prop := c.state_ = .kConnected ∨ c.state_ = .kDisconnecting

structure Quiet (c c' : TcpConnection) : Prop where
  stays : Open c → Open c'
  announces : announced c' = announced c
  watched : Watched c.poller_ c.channel_ → Watched c'.poller_ c'.channel_

theorem Quiet.refl (c : TcpConnection) : Quiet c c := ⟨id, rfl, id⟩

theorem Quiet.trans {c d e : TcpConnection} (h : Quiet c d) (k : Quiet d e) : Quiet c e :=
  ⟨fun o => k.stays (h.stays o), k.announces.trans h.announces,
    fun w => k.watched (h.watched w)⟩

theorem Quiet.of_frame {c c' : TcpConnection} (h : Frame c c') : Quiet c c' := by
  obtain ⟨events, ht, writes⟩ := h.writes
  refine ⟨?_, announced_silent ht ?_, h.watched⟩
  · unfold Open
    rw [h.state]
    exact id
  · intro e he
    have isw := writes e he
    cases e <;> simp_all [isWrite, isAnnouncement]

theorem shutdownInLoop_quiet (c : TcpConnection) : Quiet c c.shutdownInLoop := by
  unfold shutdownInLoop
  split_ifs
  · exact Quiet.refl c
  · exact ⟨id, announced_silent rfl (by simp [isAnnouncement]), id⟩

theorem shutdown_quiet (c : TcpConnection) (inLoopThread : Bool) :
    Quiet c (c.shutdown inLoopThread) := by
  unfold shutdown
  split_ifs
  · have marked : Quiet c (c.setState .kDisconnecting) := ⟨fun _ => .inr rfl, rfl, id⟩
    exact marked.trans (shutdownInLoop_quiet _)
  · exact ⟨fun _ => .inr rfl, rfl, id⟩
  · exact Quiet.refl c

theorem send_quiet {c c' : TcpConnection} {inLoopThread : Bool} {data : List Byte}
    {answer : WriteResult} (h : c.send inLoopThread data answer = some c') : Quiet c c' := by
  unfold send at h
  split_ifs at h
  · exact Quiet.of_frame (sendInLoop_frame h)
  · cases h
    exact ⟨id, rfl, id⟩
  · exact Option.some.inj h ▸ Quiet.refl c

theorem runUser_quiet {c c' : TcpConnection} {user : List UserAction}
    (h : c.runUser user = some c') : Quiet c c' := by
  induction user generalizing c with
  | nil => exact Option.some.inj h ▸ Quiet.refl c
  | cons action rest ih =>
    cases action with
    | send data answer =>
      obtain ⟨d, hd, hrest⟩ := Option.bind_eq_some_iff.mp h
      exact (send_quiet hd).trans (ih hrest)
    | shutdown => exact (shutdown_quiet c true).trans (ih h)

theorem handleWrite_quiet (c : TcpConnection) (answer : WriteResult) :
    Quiet c (c.handleWrite answer) := by
  by_cases writing : c.channel_.isWriting = true
  · have written := Quiet.of_frame (frame_write c c.outputBuffer_.readable answer)
    cases answer with
    | failed errno =>
      unfold handleWrite
      rw [if_pos writing]
      exact written
    | wrote n =>
      by_cases positive : 0 < n
      · rw [handleWrite_wrote writing positive]
        split_ifs
        · exact (Quiet.of_frame (drained_frame c n)).trans (shutdownInLoop_quiet _)
        · exact Quiet.of_frame (drained_frame c n)
        · exact Quiet.of_frame (moved_frame c n)
      · unfold handleWrite
        dsimp only
        rw [if_pos writing, if_neg positive]
        exact written
  · unfold handleWrite
    rw [if_neg writing]
    exact Quiet.refl c

theorem runFunctor_quiet {c c' : TcpConnection} {answer : WriteResult}
    {user : List UserAction} {f : Functor} (h : c.runFunctor answer user f = some c') :
    Quiet c c' := by
  cases f with
  | sendInLoop message => exact Quiet.of_frame (sendInLoop_frame h)
  | shutdownInLoop => exact Option.some.inj h ▸ shutdownInLoop_quiet c
  | writeCompleteCallback => exact runUser_quiet h
  | highWaterMarkCallback size => exact runUser_quiet h

section Phases

structure Fresh (c : TcpConnection) : Prop where
  connecting : c.state_ = .kConnecting
  new : c.channel_.index_ = .kNew
  unwatched : c.poller_.watches c.channel_.fd_ = false
  idle : c.pendingFunctors_ = []
  announces : announced c = (0, 0, 0)

structure Live (c : TcpConnection) : Prop where
  isOpen : Open c
  watched : Watched c.poller_ c.channel_
  announces : announced c = (1, 0, 0)

structure Closed (c : TcpConnection) (count : ℕ) : Prop where
  disconnected : c.state_ = .kDisconnected
  unwatched : Unwatched c.poller_ c.channel_
  announces : announced c = (1, 1, count)

theorem Live.quiet {c c' : TcpConnection} (h : Live c) (q : Quiet c c') : Live c' :=
  ⟨q.stays h.isOpen, q.watched h.watched, q.announces.trans h.announces⟩

theorem Closed.same {c c' : TcpConnection} {count : ℕ} (h : Closed c count)
    (hs : c'.state_ = c.state_) (hp : c'.poller_ = c.poller_) (hc : c'.channel_ = c.channel_)
    (ha : announced c' = announced c) : Closed c' count :=
  ⟨hs.trans h.disconnected, by rw [hp, hc]; exact h.unwatched, ha.trans h.announces⟩

theorem closed_shutdownInLoop {c : TcpConnection} {count : ℕ} (h : Closed c count) :
    Closed c.shutdownInLoop count := by
  have quiet := shutdownInLoop_quiet c
  refine h.same ?_ ?_ ?_ quiet.announces <;> unfold shutdownInLoop <;> split_ifs <;> rfl

theorem shutdown_disconnected {c : TcpConnection} (h : c.state_ = .kDisconnected)
    (inLoopThread : Bool) : c.shutdown inLoopThread = c := by
  simp [shutdown, h]

theorem send_disconnected {c : TcpConnection} (h : c.state_ = .kDisconnected)
    (inLoopThread : Bool) (data : List Byte) (answer : WriteResult) :
    c.send inLoopThread data answer = some c := by
  simp [send, h]

theorem runUser_disconnected {c : TcpConnection} (h : c.state_ = .kDisconnected)
    (user : List UserAction) : c.runUser user = some c := by
  induction user with
  | nil => rfl
  | cons action rest ih =>
    cases action with
    | send data answer =>
      rw [runUser, send_disconnected h]
      exact ih
    | shutdown =>
      rw [runUser, shutdown_disconnected h]
      exact ih

theorem closed_runFunctor {c c' : TcpConnection} {count : ℕ} {answer : WriteResult}
    {user : List UserAction} {f : Functor} (h : Closed c count)
    (hc : c.runFunctor answer user f = some c') : Closed c' count := by
  cases f with
  | sendInLoop message =>
    have refused : c.sendInLoop message answer = some c := by simp [sendInLoop, h.disconnected]
    exact Option.some.inj (refused.symm.trans hc) ▸ h
  | shutdownInLoop => exact Option.some.inj hc ▸ closed_shutdownInLoop h
  | writeCompleteCallback =>
    exact Option.some.inj ((runUser_disconnected h.disconnected user).symm.trans hc) ▸ h
  | highWaterMarkCallback size =>
    exact Option.some.inj ((runUser_disconnected h.disconnected user).symm.trans hc) ▸ h

end Phases

section Transitions

theorem Fresh.established {c c' : TcpConnection} {user : List UserAction} (h : Fresh c)
    (hc : c.connectEstablished user = some c') : Live c' := by
  unfold connectEstablished connectionCallback at hc
  have entered : Live ((({ c.setState .kConnected with
      channel_ := { c.channel_ with tied_ := true } } : TcpConnection).setChannel
      (c.poller_.enableReading { c.channel_ with tied_ := true })).record
      (.connection true)) :=
    ⟨.inl rfl, enableReading_watched h.new h.unwatched, announced_up h.announces⟩
  exact entered.quiet (runUser_quiet hc)

theorem callback_down {c : TcpConnection} (h : c.state_ = .kDisconnected)
    (user : List UserAction) :
    c.connectionCallback user = some (c.record (.connection false)) := by
  have down : c.connected = false := by simp [connected, h]
  rw [connectionCallback, down]
  exact runUser_disconnected (c := c.record (.connection false)) h user

theorem Live.down {c : TcpConnection} (h : Live c) :
    Closed ((((c.setState .kDisconnected).setChannel
      (c.poller_.disableAll c.channel_))).record (.connection false)) 0 :=
  ⟨rfl, disableAll_unwatched h.watched, announced_down h.announces⟩

theorem Live.handleClose {c c' : TcpConnection} {user : List UserAction} (h : Live c)
    (hc : c.handleClose user = some c') : Closed c' 1 := by
  unfold TcpConnection.handleClose at hc
  dsimp only at hc
  rw [callback_down rfl] at hc
  obtain rfl := Option.some.inj hc
  exact ⟨rfl, h.down.unwatched, announced_close h.down.announces⟩

theorem closed_removeChannel {c : TcpConnection} {count : ℕ} (h : Closed c count) :
    Closed (c.setChannel (c.poller_.removeChannel c.channel_)) count :=
  ⟨h.disconnected, removeChannel_unwatched h.unwatched, h.announces⟩

theorem closed_connectDestroyed {c c' : TcpConnection} {count : ℕ} {user : List UserAction}
    (h : Closed c count) (hc : c.connectDestroyed user = some c') : Closed c' count := by
  have skipped : c.state_ ≠ .kConnected := by simp [h.disconnected]
  unfold connectDestroyed at hc
  rw [if_neg skipped] at hc
  exact Option.some.inj hc ▸ closed_removeChannel h

theorem Live.connectDestroyed {c c' : TcpConnection} {user : List UserAction} (h : Live c)
    (up : c.state_ = .kConnected) (hc : c.connectDestroyed user = some c') : Closed c' 0 := by
  unfold TcpConnection.connectDestroyed at hc
  rw [if_pos up] at hc
  dsimp only at hc
  rw [callback_down rfl] at hc
  exact Option.some.inj hc ▸ closed_removeChannel h.down

end Transitions

section Dispatch

def endOfFile : Buffer.ReadResult → Bool
  | .received bytes => bytes.isEmpty
  | .failed _ => false

theorem readFd_positive {b b' : Buffer} {e e' n : ℤ} {r : Buffer.ReadResult}
    (h : b.readFd e r = some (b', n, e')) : n = 0 ↔ endOfFile r = true := by
  cases r with
  | failed errno =>
    obtain ⟨-, rfl, -⟩ := Prod.mk.injEq .. ▸ Option.some.inj h
    simp [endOfFile]
  | received bytes =>
    simp only [Buffer.readFd] at h
    have size : n = (bytes.length : ℤ) := by
      split_ifs at h
      · simp only [Option.some.injEq, Prod.mk.injEq] at h
        exact h.2.1.symm
      · obtain ⟨b, -, hb⟩ := Option.map_eq_some_iff.mp h
        simp only [Prod.mk.injEq] at hb
        exact hb.2.1.symm
    simp [size, endOfFile]

theorem Live.handleRead {c c' : TcpConnection} {io : Incoming} (h : Live c)
    (hc : c.handleRead io = some c') : Live c' ∨ Closed c' 1 := by
  obtain ⟨⟨b, n, e⟩, hb, hc⟩ := Option.bind_eq_some_iff.mp hc
  have filled : Live { c with inputBuffer_ := b } := ⟨h.isOpen, h.watched, h.announces⟩
  dsimp only at hc
  split_ifs at hc
  · refine .inl (filled.quiet (Quiet.trans ?_ (runUser_quiet hc)))
    exact ⟨id, announced_silent rfl (by simp [isAnnouncement]), id⟩
  · exact .inr (filled.handleClose hc)
  · exact .inl (Option.some.inj hc ▸ filled)

/-- A read after `handleClose` in the same dispatch, when it does not report the end
a second time. -/
theorem closed_handleRead {c c' : TcpConnection} {count : ℕ} {io : Incoming}
    (h : Closed c count) (more : endOfFile io.read = false) (hc : c.handleRead io = some c') :
    Closed c' count := by
  obtain ⟨⟨b, n, e⟩, hb, hc⟩ := Option.bind_eq_some_iff.mp hc
  have nonzero : n ≠ 0 := fun zero => by simp [(readFd_positive hb).mp zero] at more
  dsimp only at hc
  rw [if_neg nonzero] at hc
  split_ifs at hc
  · have told : Closed ({ c with inputBuffer_ := b }.record .message) count :=
      h.same rfl rfl rfl (announced_silent rfl (by simp [isAnnouncement]))
    rw [runUser_disconnected told.disconnected] at hc
    exact Option.some.inj hc ▸ told
  · exact Option.some.inj hc ▸ h.same rfl rfl rfl rfl

theorem closed_handleWrite {c : TcpConnection} {count : ℕ} (h : Closed c count)
    (answer : WriteResult) : c.handleWrite answer = c := by
  have quiet : c.channel_.isWriting ≠ true := by
    rw [Channel.isWriting, h.unwatched.silent]
    decide
  unfold handleWrite
  rw [if_neg quiet]

/-- The dispatch that runs `handleClose` twice: a hang-up without `EPOLLIN` closes the
connection first, and a read that `EPOLLPRI` alone asks for finds the end again. -/
def ClosesTwice (revents : EventMask) (io : Incoming) : Prop :=
  (revents &&& EPOLLHUP ≠ 0 ∧ revents &&& EPOLLIN = 0) ∧
    revents &&& (EPOLLIN ||| EPOLLPRI) ≠ 0 ∧ endOfFile io.read = true

instance (revents : EventMask) (io : Incoming) : Decidable (ClosesTwice revents io) := by
  unfold ClosesTwice
  infer_instance

theorem Live.handleEvent {c c' : TcpConnection} {revents : EventMask} {io : Incoming}
    (h : Live c) (once : ¬ClosesTwice revents io) (hc : c.handleEvent revents io = some c') :
    Live c' ∨ Closed c' 1 := by
  have woken : Live { c with channel_ := { c.channel_ with revents_ := revents } } :=
    ⟨h.isOpen, ⟨h.watched.added, h.watched.reading, h.watched.watched⟩, h.announces⟩
  obtain ⟨d, hd, hc⟩ := Option.bind_eq_some_iff.mp hc
  obtain ⟨e, he, hc⟩ := Option.bind_eq_some_iff.mp hc
  have read : Live e ∨ Closed e 1 := by
    dsimp only at hd he
    split_ifs at hd with hup
    · have closed := woken.handleClose hd
      split_ifs at he with asked
      · have more : endOfFile io.read = false := by
          by_contra eof
          exact once ⟨hup, asked, by simpa using eof⟩
        exact .inr (closed_handleRead closed more he)
      · exact .inr (Option.some.inj he ▸ closed)
    · have live := Option.some.inj hd ▸ woken
      split_ifs at he
      · exact live.handleRead he
      · exact .inl (Option.some.inj he ▸ live)
  obtain rfl := Option.some.inj hc
  cases read with
  | inl live =>
    left
    dsimp only
    split_ifs
    · exact live.quiet (handleWrite_quiet e io.write)
    · exact live
  | inr closed =>
    right
    dsimp only
    rw [closed_handleWrite closed, ite_self]
    exact closed

end Dispatch

section Run

inductive Action where
  | connectEstablished (user : List UserAction)
  | handleEvent (revents : EventMask) (io : Incoming)
  | send (inLoopThread : Bool) (data : List Byte) (answer : WriteResult)
  | shutdown (inLoopThread : Bool)
  | runFunctor (answer : WriteResult) (user : List UserAction)
  | connectDestroyed (user : List UserAction)

structure State where
  conn : TcpConnection
  established : Bool
  destroyed : Bool

/-- The server queues `connectEstablished` once and before any `connectDestroyed`; a
second `connectDestroyed` may follow the first. Events are delivered while the
descriptor is registered. -/
def next (s : State) : Action → Option State
  | .connectEstablished user =>
    if s.established then none
    else (s.conn.connectEstablished user).map fun c => { s with conn := c, established := true }
  | .handleEvent revents io =>
    if s.conn.poller_.watches s.conn.channel_.fd_ then
      (s.conn.handleEvent revents io).map fun c => { s with conn := c }
    else none
  | .send inLoopThread data answer =>
    (s.conn.send inLoopThread data answer).map fun c => { s with conn := c }
  | .shutdown inLoopThread => some { s with conn := s.conn.shutdown inLoopThread }
  | .runFunctor answer user =>
    match s.conn.pendingFunctors_ with
    | [] => none
    | f :: rest =>
      ({ s.conn with pendingFunctors_ := rest }.runFunctor answer user f).map
        fun c => { s with conn := c }
  | .connectDestroyed user =>
    if s.established then
      (s.conn.connectDestroyed user).map fun c => { s with conn := c, destroyed := true }
    else none

def lifecycle : System State Action where
  init s := s.established = false ∧ s.destroyed = false ∧
    ∃ address sockfd poller wc hw mark, poller.watches sockfd = false ∧
      s.conn = construct address sockfd poller wc hw mark
  next := next

/-- No dispatch closes twice, and `connectDestroyed` does not find the connection
half-closed by `shutdown`. -/
def Guarded (s : State) : Action → Prop
  | .handleEvent revents io => ¬ClosesTwice revents io
  | .connectDestroyed _ => s.conn.state_ ≠ .kDisconnecting
  | _ => True

inductive Phase (s : State) : Prop where
  | fresh (conn : Fresh s.conn) (before : s.established = false) (kept : s.destroyed = false)
  | live (conn : Live s.conn) (after : s.established = true) (kept : s.destroyed = false)
  | closed (count : ℕ) (conn : Closed s.conn count) (once : count ≤ 1)
      (after : s.established = true)

theorem fresh_construct {address : ℕ} {sockfd : ℤ} {poller : EPollPoller} {wc hw : Bool}
    {mark : ℕ} (h : poller.watches sockfd = false) :
    Fresh (construct address sockfd poller wc hw mark) :=
  ⟨rfl, rfl, h, rfl, rfl⟩

theorem phase_initial {s : State} (h : lifecycle.init s) : Phase s := by
  obtain ⟨before, kept, address, sockfd, poller, wc, hw, mark, unwatched, hc⟩ := h
  exact .fresh (hc ▸ fresh_construct unwatched) before kept

theorem Fresh.send {c : TcpConnection} (h : Fresh c) (inLoopThread : Bool) (data : List Byte)
    (answer : WriteResult) : c.send inLoopThread data answer = some c := by
  simp [TcpConnection.send, h.connecting]

theorem Fresh.shutdown {c : TcpConnection} (h : Fresh c) (inLoopThread : Bool) :
    c.shutdown inLoopThread = c := by
  simp [TcpConnection.shutdown, h.connecting]

theorem closed_next {s t : State} {a : Action} {count : ℕ} (h : Closed s.conn count)
    (after : s.established = true) (hn : next s a = some t) :
    Closed t.conn count ∧ t.established = true := by
  cases a with
  | connectEstablished user => simp [next, after] at hn
  | handleEvent revents io => simp [next, h.unwatched.unwatched] at hn
  | send inLoopThread data answer =>
    simp only [next, send_disconnected h.disconnected] at hn
    exact Option.some.inj hn ▸ ⟨h, after⟩
  | shutdown inLoopThread =>
    simp only [next, shutdown_disconnected h.disconnected] at hn
    exact Option.some.inj hn ▸ ⟨h, after⟩
  | runFunctor answer user =>
    simp only [next] at hn
    split at hn
    · cases hn
    · obtain ⟨c, hc, rfl⟩ := Option.map_eq_some_iff.mp hn
      have popped : ∀ rest, Closed { s.conn with pendingFunctors_ := rest } count :=
        fun _ => h.same rfl rfl rfl rfl
      exact ⟨closed_runFunctor (popped _) hc, after⟩
  | connectDestroyed user =>
    simp only [next] at hn
    rw [if_pos after] at hn
    obtain ⟨c, hc, rfl⟩ := Option.map_eq_some_iff.mp hn
    exact ⟨closed_connectDestroyed h hc, after⟩

theorem live_next {s t : State} {a : Action} (h : Live s.conn) (after : s.established = true)
    (kept : s.destroyed = false) (ha : Guarded s a) (hn : next s a = some t) : Phase t := by
  have quiet : ∀ {c}, Quiet s.conn c → Phase { s with conn := c } :=
    fun q => .live (h.quiet q) after kept
  cases a with
  | connectEstablished user => simp [next, after] at hn
  | handleEvent revents io =>
    simp only [next, h.watched.watched, if_true] at hn
    obtain ⟨c, hc, rfl⟩ := Option.map_eq_some_iff.mp hn
    rcases h.handleEvent ha hc with live | closed
    · exact .live live after kept
    · exact .closed 1 closed le_rfl after
  | send inLoopThread data answer =>
    obtain ⟨c, hc, rfl⟩ := Option.map_eq_some_iff.mp hn
    exact quiet (send_quiet hc)
  | shutdown inLoopThread => exact Option.some.inj hn ▸ quiet (shutdown_quiet _ _)
  | runFunctor answer user =>
    simp only [next] at hn
    split at hn
    · cases hn
    · obtain ⟨c, hc, rfl⟩ := Option.map_eq_some_iff.mp hn
      have popped : ∀ rest, Quiet s.conn { s.conn with pendingFunctors_ := rest } :=
        fun _ => ⟨id, rfl, id⟩
      exact quiet ((popped _).trans (runFunctor_quiet hc))
  | connectDestroyed user =>
    have up : s.conn.state_ = .kConnected := h.isOpen.resolve_right ha
    simp only [next] at hn
    rw [if_pos after] at hn
    obtain ⟨c, hc, rfl⟩ := Option.map_eq_some_iff.mp hn
    exact .closed 0 (h.connectDestroyed up hc) (Nat.zero_le 1) after

theorem fresh_next {s t : State} {a : Action} (h : Fresh s.conn)
    (before : s.established = false) (kept : s.destroyed = false) (hn : next s a = some t) :
    Phase t := by
  cases a with
  | connectEstablished user =>
    simp only [next, before] at hn
    obtain ⟨c, hc, rfl⟩ := Option.map_eq_some_iff.mp hn
    exact .live (h.established hc) rfl kept
  | handleEvent revents io => simp [next, h.unwatched] at hn
  | send inLoopThread data answer =>
    simp only [next, h.send] at hn
    exact Option.some.inj hn ▸ .fresh h before kept
  | shutdown inLoopThread =>
    simp only [next, h.shutdown] at hn
    exact Option.some.inj hn ▸ .fresh h before kept
  | runFunctor answer user => simp [next, h.idle] at hn
  | connectDestroyed user => simp [next, before] at hn

theorem phase_next {s t : State} {a : Action} (h : Phase s) (ha : Guarded s a)
    (hn : next s a = some t) : Phase t := by
  cases h with
  | fresh conn before kept => exact fresh_next conn before kept hn
  | live conn after kept => exact live_next conn after kept ha hn
  | closed count conn once after =>
    obtain ⟨hc, hafter⟩ := closed_next conn after hn
    exact .closed count hc once hafter

theorem lifecycle_phase {s : State} (h : lifecycle.Reachable Guarded s) : Phase s :=
  h.invariant (fun _ => phase_initial) fun _ _ _ => phase_next

/-- Once destroyed, the connection has been announced up once and down once, the close
callback ran at most once, and no later step of any kind calls one of them. -/
theorem announced_once {s : State} (h : lifecycle.Reachable Guarded s)
    (destroyed : s.destroyed = true) :
    ups s.conn.trace = 1 ∧ downs s.conn.trace = 1 ∧ closes s.conn.trace ≤ 1 ∧
      ∀ t, lifecycle.Path Any s t → announced t.conn = announced s.conn := by
  cases lifecycle_phase h with
  | fresh conn before kept => simp [destroyed] at kept
  | live conn after kept => simp [destroyed] at kept
  | closed count conn once after =>
    have counts := conn.announces
    simp only [announced, Prod.mk.injEq] at counts
    obtain ⟨hu, hd, hc⟩ := counts
    refine ⟨hu, hd, hc ▸ once, fun t run => ?_⟩
    have stays : Closed t.conn count ∧ t.established = true :=
      run.stable (P := fun s => Closed s.conn count ∧ s.established = true)
        (fun _ _ _ hs _ hn => closed_next hs.1 hs.2 hn) ⟨conn, after⟩
    exact stays.1.announces.trans conn.announces.symm

def sample : State where
  conn := construct 1 7 EPollPoller.construct false false 64
  established := false
  destroyed := false

theorem sample_initial : lifecycle.init sample :=
  ⟨rfl, rfl, 1, 7, _, false, false, 64, rfl, rfl⟩

instance (s : State) (a : Action) : Decidable (Guarded s a) := by
  cases a <;> unfold Guarded <;> infer_instance

/-- An ordinary life: up, a request answered with a half-close, the peer's end, and
the server's `connectDestroyed`. -/
theorem announced_once_half_close :
    ∃ s, lifecycle.Reachable Guarded s ∧ s.destroyed = true ∧
      ups s.conn.trace = 1 ∧ downs s.conn.trace = 1 ∧ closes s.conn.trace ≤ 1 ∧
      ∀ t, lifecycle.Path Any s t → announced t.conn = announced s.conn := by
  have run : (lifecycle.execute Guarded sample
      [.connectEstablished [],
        .handleEvent EPOLLIN ⟨.received [1], .wrote 0, [.send [2] (.wrote 1), .shutdown], []⟩,
        .handleEvent (EPOLLIN ||| EPOLLHUP) ⟨.received [], .wrote 0, [], []⟩,
        .connectDestroyed []]).map State.destroyed = some true := by decide +kernel
  obtain ⟨s, reached, destroyed⟩ := System.Reachable.of_replay sample_initial run
  exact ⟨s, reached, destroyed, announced_once reached destroyed⟩

/-- `shutdown` followed by the server's `connectDestroyed` announces no down; a hang-up
with urgent data and the end of the stream announces it twice and closes twice. -/
theorem announced_miscounted :
    (∃ s, lifecycle.Reachable Any s ∧ s.destroyed = true ∧ announced s.conn = (1, 0, 0)) ∧
      ∃ s, lifecycle.Reachable Any s ∧ s.destroyed = true ∧ announced s.conn = (1, 2, 2) := by
  have missed : (lifecycle.execute Any sample
      [.connectEstablished [], .shutdown true, .connectDestroyed []]).map
      (fun s => (s.destroyed, announced s.conn)) = some (true, 1, 0, 0) := by decide +kernel
  have doubled : (lifecycle.execute Any sample
      [.connectEstablished [],
        .handleEvent (EPOLLHUP ||| EPOLLPRI) ⟨.received [], .wrote 0, [], []⟩,
        .connectDestroyed []]).map
      (fun s => (s.destroyed, announced s.conn)) = some (true, 1, 2, 2) := by decide +kernel
  obtain ⟨s, reached, counts⟩ := System.Reachable.of_replay sample_initial missed
  obtain ⟨t, reached', counts'⟩ := System.Reachable.of_replay sample_initial doubled
  exact ⟨⟨s, reached, congrArg Prod.fst counts, congrArg Prod.snd counts⟩,
    ⟨t, reached', congrArg Prod.fst counts', congrArg Prod.snd counts'⟩⟩

end Run

end TinyNetwork.ConnectionLifecycle

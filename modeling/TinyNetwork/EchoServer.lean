import TinyNetwork.ConnectionRequests

/-! The program of `test.cpp`, an echo server: one of its connections, from the end of
`connectEstablished` on. `onMessage` takes all of `inputBuffer_` as a string and sends it back;
`onConnection` only logs. -/
namespace TinyNetwork.EchoServer
open Transition MachineWord TcpConnection ConnectionOutput ConnectionRequests StreamHandler

structure EchoConnection where
  conn : TcpConnection
  received : List Byte

/-- What `onMessage` sends of the buffer it is given, and what it leaves there. A byte from
outside the vector has no value. -/
def onMessage (buf : Buffer) : List Byte × Buffer :=
  let (msg, buf) := buf.retrieveAllAsString
  (msg.reduceOption, buf)

inductive Action where
  | handleRead (r : Buffer.ReadResult) (answer : WriteResult)
  | handleWrite (answer : WriteResult)

def next (s : EchoConnection) : Action → Option EchoConnection
  | .handleRead r answer =>
    if s.conn.state_ = .kDisconnected then none
    else (s.conn.inputBuffer_.readFd 0 r).bind fun result =>
      let (msg, buf) := onMessage result.1
      (s.conn.handleRead ⟨r, .wrote 0, [.send msg answer], []⟩).map fun c =>
        if r.bytes = [] then { s with conn := c }
        else ⟨{ c with inputBuffer_ := buf }, s.received ++ r.bytes⟩
  | .handleWrite answer => some { s with conn := s.conn.handleWrite answer }

def echoServer : System EchoConnection Action where
  init s := s.received = [] ∧ ∃ address sockfd poller wc hw mark,
    (construct address sockfd poller wc hw mark).connectEstablished [] = some s.conn
  next := next

def Working (s : EchoConnection) : Action → Prop
  | .handleRead r answer => s.conn.inputBuffer_.Offered r ∧ r.bytes.length < 2 ^ 31 ∧
      Answers r.bytes.length answer
  | .handleWrite answer => Answers s.conn.outputBuffer_.readable.length answer

def image (s : EchoConnection) : Conversation Unit := ⟨s.conn, (), s.received⟩

variable {s t : EchoConnection}

theorem onMessage_eq {b : Buffer} (h : Buffer.WellFormed b) :
    onMessage b = (b.readable, b.retrieve b.readable.length) := by
  have taken : b.retrieveAllAsString.1.reduceOption = b.readable := by
    rw [Buffer.retrieveAllAsString_fst h]
    exact List.filterMap_map.trans List.filterMap_some
  rw [onMessage, Buffer.readable_length h]
  exact congrArg (·, _) taken

theorem send_input {c c' : TcpConnection} {data : List Byte} {answer : WriteResult}
    (hc : c.runUser [.send data answer] = some c') : c'.inputBuffer_ = c.inputBuffer_ := by
  obtain ⟨d, sent, rest⟩ := Option.bind_eq_some_iff.mp hc
  rw [← Option.some.inj rest]
  rw [TcpConnection.send, if_pos rfl] at sent
  split_ifs at sent
  · exact sendInLoop_input sent
  · rw [Option.some.inj sent]

theorem handleRead_input {c : TcpConnection} {b : Buffer} {n e : ℤ} {r : Buffer.ReadResult}
    {data : List Byte} {answer : WriteResult}
    (hb : s.conn.inputBuffer_.readFd 0 r = some (b, n, e)) (some_ : 0 < n)
    (hc : s.conn.handleRead ⟨r, .wrote 0, [.send data answer], []⟩ = some c) :
    c.inputBuffer_ = b := by
  rw [TcpConnection.handleRead, hb, Option.bind_some] at hc
  simp only [if_pos some_] at hc
  exact send_input hc

/-- Each step of the program is one of the conversation. -/
theorem step_refines {a : Action} (answered : Answered (Handler.echo Byte) () (image s))
    (working : Working s a) (hn : next s a = some t) :
    ∃ b, ConnectionRequests.Working (image s) b ∧
      ConnectionRequests.next (Handler.echo Byte) (image s) b = some (image t) := by
  cases a with
  | handleWrite answer =>
    cases hn
    exact ⟨.handleWrite answer, working, rfl⟩
  | handleRead r answer =>
    obtain ⟨offered, short, answers⟩ := working
    have closed : s.conn.state_ ≠ .kDisconnected := fun closed => by
      rw [next, if_pos closed] at hn
      cases hn
    rw [next, if_neg closed] at hn
    obtain ⟨⟨b, n, e⟩, hb, hn⟩ := Option.bind_eq_some_iff.mp hn
    obtain ⟨wellFormed, content⟩ := Buffer.readFd_content answered.input offered hb
    have emptied : s.conn.inputBuffer_.readable = [] := by
      refine answered.waiting.trans ?_
      exact List.drop_length
    have content : b.readable = r.bytes := by
      rw [content]
      exact congrArg (· ++ r.bytes) emptied
    simp only [onMessage_eq wellFormed, content] at hn
    obtain ⟨c, hc, rfl⟩ := Option.map_eq_some_iff.mp hn
    refine ⟨.handleRead r [(r.bytes, answer)] [], ⟨offered, fun piece mem => ?_⟩, ?_⟩
    · rw [List.mem_singleton.mp mem]
      exact ⟨short, answers⟩
    · have visible : shown (image s).conn r = some r.bytes := by
        rw [shown, show (image s).conn = s.conn from rfl, hb, Option.map_some, content]
      have read : (image s).conn.handleRead ⟨r, .wrote 0, sends [(r.bytes, answer)], []⟩ =
          some c := hc
      have live : (image s).conn.state_ ≠ .kDisconnected := closed
      rw [ConnectionRequests.next, visible, Option.bind_some, read, Option.bind_some, if_neg live]
      by_cases silent : r.bytes = []
      · rw [if_pos silent, if_pos silent]
        rfl
      · have input :=
          handleRead_input hb ((readFd_positive answered.input offered hb).mpr silent) hc
        have whole : ([(r.bytes, answer)].map Prod.fst).flatten =
            ((Handler.echo Byte).handle (image s).user r.bytes).reply := List.append_nil _
        rw [if_neg silent, if_neg silent, if_pos whole, retrieveInput, input]
        rfl

theorem answered (reached : echoServer.Reachable Working s) :
    Answered (Handler.echo Byte) () (image s) := by
  refine reached.invariant (P := fun s => Answered (Handler.echo Byte) () (image s))
    (fun t start => ?_) fun t a u held working hn => ?_
  · obtain ⟨received, made⟩ := start
    exact answered_initial ⟨rfl, received, made⟩
  · obtain ⟨b, kept, step⟩ := step_refines held working hn
    exact held.next kept step

/-- Nothing stays in `inputBuffer_`: at any time the bytes received are those the kernel has
taken back, in their order, and behind them those that wait in `outputBuffer_`. -/
theorem echoes_received (reached : echoServer.Reachable Working s) :
    accepted s.conn.trace ++ s.conn.outputBuffer_.readable = s.received ∧
      s.conn.inputBuffer_.readable = [] ∧
      (s.conn.state_ = .kConnected →
        (s.conn.channel_.isWriting = true ↔ s.conn.outputBuffer_.readable ≠ [])) := by
  have held := answered reached
  refine ⟨held.stream, held.waiting.trans List.drop_length, fun up => ?_⟩
  rcases held.phase with ⟨-, synced⟩ | ⟨closed, -⟩
  · exact synced.interest
  · exact absurd (closed.symm.trans up) (by decide)

def sample : EchoConnection := ⟨ConnectionOutput.sample.conn, []⟩

instance (s : EchoConnection) : (a : Action) → Decidable (Working s a)
  | .handleRead r answer => inferInstanceAs (Decidable (s.conn.inputBuffer_.Offered r ∧
      r.bytes.length < 2 ^ 31 ∧ Answers r.bytes.length answer))
  | .handleWrite answer =>
    inferInstanceAs (Decidable (Answers s.conn.outputBuffer_.readable.length answer))

/-- The kernel takes one byte back, then none as the socket is full, and later two. -/
theorem echoes_received_slow : ∃ s : EchoConnection, echoServer.Reachable Working s ∧
    (s.received, accepted s.conn.trace, s.conn.outputBuffer_.readable) =
      ([1, 2, 3, 4], [1, 2, 3], [4]) ∧
    s.conn.inputBuffer_.readable = [] := by
  have run : (echoServer.execute Working sample
      [.handleRead (.received [1, 2, 3]) (.wrote 1), .handleRead (.received [4]) (.wrote 0),
        .handleWrite (.wrote 2)]).map
      (fun s => (s.received, accepted s.conn.trace, s.conn.outputBuffer_.readable)) =
      some ([1, 2, 3, 4], [1, 2, 3], [4]) := by decide +kernel
  have start : echoServer.init sample := ⟨rfl, 1, 7, _, true, true, 64, rfl⟩
  obtain ⟨s, reached, ends⟩ := System.Reachable.of_replay start run
  exact ⟨s, reached, ends, (echoes_received reached).2.1⟩

end TinyNetwork.EchoServer

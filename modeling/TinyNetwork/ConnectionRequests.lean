import TinyNetwork.BufferTraffic
import TinyNetwork.ConnectionLifecycle
import TinyNetwork.StreamHandler

/-! A connection whose user answers what it receives, from `readv` to `write`. In
`messageCallback_` user code is shown `inputBuffer_`, retrieves a part from its front and sends
an answer, in as many pieces as it likes. If its calls can be resumed, the stream of answers is a
function of the stream received: neither the pieces in which the kernel delivers the one nor
those in which it takes the other matter. -/
namespace TinyNetwork.ConnectionRequests
open Transition MachineWord TcpConnection ConnectionOutput StreamHandler

variable {σ : Type*}

structure Conversation (σ : Type*) where
  conn : TcpConnection
  user : σ
  received : List Byte

/-- `pieces` are the arguments of the `send`s of one `messageCallback_`, with what the kernel
answers. -/
inductive Action where
  | handleRead (r : Buffer.ReadResult) (pieces : List (List Byte × WriteResult))
      (onDown : List UserAction)
  | handleWrite (answer : WriteResult)

def sends (pieces : List (List Byte × WriteResult)) : List UserAction :=
  pieces.map fun piece => .send piece.1 piece.2

def shown (c : TcpConnection) (r : Buffer.ReadResult) : Option (List Byte) :=
  (c.inputBuffer_.readFd 0 r).map fun result => result.1.readable

/-- `retrieve` by user code. The `send`s before it do not touch the buffer. -/
def retrieveInput (c : TcpConnection) (len : ℕ) : TcpConnection :=
  { c with inputBuffer_ := c.inputBuffer_.retrieve len }

/-- A closed connection gets no more events. -/
def next (h : Handler σ Byte Byte) (s : Conversation σ) : Action → Option (Conversation σ)
  | .handleRead r pieces onDown =>
    (shown s.conn r).bind fun content =>
    (s.conn.handleRead ⟨r, .wrote 0, sends pieces, onDown⟩).bind fun c =>
    if s.conn.state_ = .kDisconnected then none
    else if r.bytes = [] then some { s with conn := c }
    else if (pieces.map Prod.fst).flatten = (h.handle s.user content).reply then
      some ⟨retrieveInput c (h.handle s.user content).consumed,
        (h.handle s.user content).state, s.received ++ r.bytes⟩
    else none
  | .handleWrite answer => some { s with conn := s.conn.handleWrite answer }

def conversation (h : Handler σ Byte Byte) (first : σ) : System (Conversation σ) Action where
  init s := s.user = first ∧ s.received = [] ∧ ∃ address sockfd poller wc hw mark,
    (construct address sockfd poller wc hw mark).connectEstablished [] = some s.conn
  next := next h

def Working (s : Conversation σ) : Action → Prop
  | .handleRead r pieces _ => s.conn.inputBuffer_.Offered r ∧
      ∀ piece ∈ pieces, piece.1.length < 2 ^ 31 ∧ Answers piece.1.length piece.2
  | .handleWrite answer => Answers s.conn.outputBuffer_.readable.length answer

theorem readFd_positive {b b' : Buffer} {n e : ℤ} {r : Buffer.ReadResult}
    (wellFormed : b.WellFormed) (offered : b.Offered r)
    (hb : b.readFd 0 r = some (b', n, e)) : 0 < n ↔ r.bytes ≠ [] := by
  have into := (Buffer.readFd_once wellFormed offered).2 b' n e hb
  cases r with
  | failed errno => simp [(into.failed errno rfl).1, Buffer.ReadResult.bytes]
  | received bytes =>
    rw [(into.received bytes rfl).1, Int.natCast_pos]
    exact List.length_pos_iff

section Input
variable {c c' : TcpConnection}

theorem noteWriteComplete_input (c : TcpConnection) :
    c.noteWriteComplete.inputBuffer_ = c.inputBuffer_ := by
  unfold noteWriteComplete
  split_ifs <;> rfl

theorem noteHighWaterMark_input (c : TcpConnection) (n : ℕ) :
    (c.noteHighWaterMark n).inputBuffer_ = c.inputBuffer_ := by
  unfold noteHighWaterMark
  dsimp only
  split_ifs <;> rfl

theorem write_input (c : TcpConnection) (data : List Byte) (answer : WriteResult) :
    (c.write data answer).inputBuffer_ = c.inputBuffer_ := by
  rw [write_eq]
  rfl

theorem sendRest_input {data : List Byte} {nwrote remaining : ℕ}
    (hc : c.sendRest data nwrote remaining = some c') : c'.inputBuffer_ = c.inputBuffer_ := by
  unfold sendRest at hc
  split_ifs at hc
  · obtain ⟨b, -, rfl⟩ := Option.map_eq_some_iff.mp hc
    dsimp only
    split_ifs <;> exact noteHighWaterMark_input c remaining
  · rw [Option.some.inj hc]

theorem sendInLoop_input {data : List Byte} {answer : WriteResult}
    (hc : c.sendInLoop data answer = some c') : c'.inputBuffer_ = c.inputBuffer_ := by
  unfold sendInLoop at hc
  split_ifs at hc
  · rw [Option.some.inj hc]
  · have written := write_input c data answer
    cases answer with
    | wrote n =>
      dsimp only at hc
      refine (sendRest_input hc).trans ?_
      split_ifs
      · exact (noteWriteComplete_input _).trans written
      · exact written
    | failed errno =>
      dsimp only at hc
      split_ifs at hc
      · exact Option.some.inj hc ▸ written
      · exact (sendRest_input hc).trans written
  · exact sendRest_input hc

theorem shutdownInLoop_input (c : TcpConnection) :
    c.shutdownInLoop.inputBuffer_ = c.inputBuffer_ := by
  unfold shutdownInLoop
  split_ifs <;> rfl

theorem handleWrite_input (c : TcpConnection) (answer : WriteResult) :
    (c.handleWrite answer).inputBuffer_ = c.inputBuffer_ := by
  have written := write_input c c.outputBuffer_.readable answer
  unfold handleWrite
  split_ifs
  · cases answer with
    | wrote n =>
      dsimp only
      split_ifs
      · exact (shutdownInLoop_input _).trans ((noteWriteComplete_input _).trans written)
      · exact (noteWriteComplete_input _).trans written
      · exact written
      · exact written
    | failed errno => exact written
  · rfl

end Input

section Pieces
variable {c c' : TcpConnection}

structure Sent (c c' : TcpConnection) (data : List Byte) : Prop where
  synced : Synced c'
  connected : c'.state_ = .kConnected
  input : c'.inputBuffer_ = c.inputBuffer_
  stream : accepted c'.trace ++ c'.outputBuffer_.readable =
    accepted c.trace ++ c.outputBuffer_.readable ++ data

theorem sent_piece {data : List Byte} {answer : WriteResult} (synced : Synced c)
    (connected : c.state_ = .kConnected) (short : data.length < 2 ^ 31)
    (answers : Answers data.length answer) (hc : c.send true data answer = some c') :
    Sent c c' data := by
  rw [TcpConnection.send, if_pos connected, if_pos rfl] at hc
  obtain ⟨kept, n, trace, waiting⟩ := sendInLoop_stream synced (by simp [connected])
    (fits_of_short c answer short) answers hc
  refine ⟨kept, (sendInLoop_frame hc).state.trans connected, sendInLoop_input hc, ?_⟩
  rw [trace, waiting, List.append_assoc, List.take_append_drop, List.append_assoc]

theorem sent_pieces {pieces : List (List Byte × WriteResult)} (synced : Synced c)
    (connected : c.state_ = .kConnected)
    (good : ∀ piece ∈ pieces, piece.1.length < 2 ^ 31 ∧ Answers piece.1.length piece.2)
    (hc : c.runUser (sends pieces) = some c') :
    Sent c c' (pieces.map Prod.fst).flatten := by
  induction pieces generalizing c with
  | nil =>
    cases hc
    exact ⟨synced, connected, rfl, (List.append_nil _).symm⟩
  | cons piece pieces ih =>
    obtain ⟨first, rest⟩ := List.forall_mem_cons.mp good
    rw [sends, List.map_cons, runUser] at hc
    obtain ⟨d, hd, hc⟩ := Option.bind_eq_some_iff.mp hc
    have one := sent_piece synced connected first.1 first.2 hd
    have others := ih one.synced one.connected rest hc
    refine ⟨others.synced, others.connected, others.input.trans one.input, ?_⟩
    rw [others.stream, one.stream, List.map_cons, List.flatten_cons, List.append_assoc]

end Pieces

section Answers
variable {h : Handler σ Byte Byte} {first : σ} {s t : Conversation σ}

def Phase (c : TcpConnection) : Prop :=
  c.state_ = .kConnected ∧ Synced c ∨
    c.state_ = .kDisconnected ∧ c.channel_.isWriting = false

/-- What has been sent are the answers to all that has been received, and what user code has
not taken waits. -/
structure Answered (h : Handler σ Byte Byte) (first : σ) (s : Conversation σ) : Prop where
  input : s.conn.inputBuffer_.WellFormed
  phase : Phase s.conn
  waiting : s.conn.inputBuffer_.readable = h.left first s.received
  user : s.user = (h.handle first s.received).state
  stream : accepted s.conn.trace ++ s.conn.outputBuffer_.readable =
    (h.handle first s.received).reply

theorem answered_initial (start : (conversation h first).init s) : Answered h first s := by
  obtain ⟨user, received, address, sockfd, poller, wc, hw, mark, made⟩ := start
  have begun : output.init ⟨s.conn, []⟩ := ⟨rfl, address, sockfd, poller, wc, hw, mark, made⟩
  obtain ⟨⟨-, synced⟩, streams⟩ := established_inv begun
  have quiet : accepted s.conn.trace = [] ∧ s.conn.outputBuffer_.readable = [] :=
    ⟨congrArg FifoTransfer.Transfer.delivered streams,
      congrArg FifoTransfer.Transfer.waiting streams⟩
  have shape := Option.some.inj made
  have fresh : s.conn.inputBuffer_ = Buffer.fresh := by
    rw [← shape]
    rfl
  have connected : s.conn.state_ = .kConnected := by
    rw [← shape]
    rfl
  refine ⟨fresh ▸ Buffer.fresh_wellFormed, .inl ⟨connected, synced⟩, ?_, ?_, ?_⟩
  · rw [fresh, received, Handler.left, h.idle]
    rfl
  · rw [user, received, h.idle]
    rfl
  · rw [quiet.1, quiet.2, received, h.idle]
    rfl

/-- More is read: user code answers what it is shown, and the answers go on where they were. -/
theorem Answered.read {b : Buffer} {n e : ℤ} {r : Buffer.ReadResult} {c : TcpConnection}
    {pieces : List (List Byte × WriteResult)} {onDown : List UserAction}
    (held : Answered h first s) (working : Working s (.handleRead r pieces onDown))
    (live : s.conn.state_ ≠ .kDisconnected) (some_ : r.bytes ≠ [])
    (hb : s.conn.inputBuffer_.readFd 0 r = some (b, n, e))
    (hc : s.conn.handleRead ⟨r, .wrote 0, sends pieces, onDown⟩ = some c)
    (replies : (pieces.map Prod.fst).flatten = (h.handle s.user b.readable).reply) :
    Answered h first ⟨retrieveInput c (h.handle s.user b.readable).consumed,
      (h.handle s.user b.readable).state, s.received ++ r.bytes⟩ := by
  obtain ⟨offered, good⟩ := working
  obtain ⟨connected, synced⟩ := held.phase.resolve_right fun closed => live closed.1
  obtain ⟨wellFormed, content⟩ := Buffer.readFd_content held.input offered hb
  have positive : 0 < n := (readFd_positive held.input offered hb).mpr some_
  rw [TcpConnection.handleRead, hb, Option.bind_some] at hc
  simp only [if_pos positive] at hc
  have sent := sent_pieces (c := { s.conn with inputBuffer_ := b }.record .message)
    (synced.of_eq rfl rfl) connected good hc
  have shown_ : b.readable = h.left first s.received ++ r.bytes := by rw [content, held.waiting]
  have resumed : h.handle first (s.received ++ r.bytes) =
      (h.handle first s.received).andThen (h.handle s.user b.readable) := by
    rw [h.resume first s.received r.bytes, held.user, shown_]
    rfl
  have input : c.inputBuffer_ = b := sent.input
  refine ⟨Buffer.retrieve_wellFormed (input ▸ wellFormed) _,
    .inl ⟨sent.connected, sent.synced.of_eq rfl rfl⟩, ?_, ?_, ?_⟩
  · rw [retrieveInput, Buffer.retrieve_readable (input ▸ wellFormed), input, h.left_append,
      ← shown_, ← held.user, Handler.left]
  · rw [resumed]
    rfl
  · have message : accepted ({ s.conn with inputBuffer_ := b }.record .message).trace =
        accepted s.conn.trace := by
      simp [record, accepted, eventBytes]
    have stream := sent.stream
    rw [message, replies] at stream
    rw [resumed, Outcome.andThen, ← held.stream]
    exact stream

theorem Answered.withInput {buf : Buffer} (held : Answered h first s) (kept : buf.WellFormed)
    (waiting : buf.readable = h.left first s.received) :
    Answered h first { s with conn := { s.conn with inputBuffer_ := buf } } :=
  ⟨kept, held.phase.imp (fun up => ⟨up.1, up.2.of_eq rfl rfl⟩) id, waiting, held.user, held.stream⟩

theorem Answered.silent {b : Buffer} {n e : ℤ} {r : Buffer.ReadResult} {c : TcpConnection}
    {io : Incoming} (held : Answered h first s) (offered : s.conn.inputBuffer_.Offered r)
    (none_ : r.bytes = []) (hb : s.conn.inputBuffer_.readFd 0 r = some (b, n, e))
    (read : io.read = r) (hc : s.conn.handleRead io = some c) :
    Answered h first { s with conn := c } := by
  obtain ⟨wellFormed, content⟩ := Buffer.readFd_content held.input offered hb
  rw [none_, List.append_nil] at content
  have waiting : b.readable = h.left first s.received := content.trans held.waiting
  have empty : ¬0 < n := fun positive => (readFd_positive held.input offered hb).mp positive none_
  rw [TcpConnection.handleRead, read, hb, Option.bind_some] at hc
  simp only [if_neg empty] at hc
  split_ifs at hc
  · unfold TcpConnection.handleClose at hc
    dsimp only at hc
    rw [ConnectionLifecycle.callback_down rfl] at hc
    obtain rfl := Option.some.inj hc
    refine ⟨wellFormed, .inr ⟨rfl, ?_⟩, waiting, held.user, ?_⟩
    · simp [record, setChannel, setState, Channel.isWriting]
    · have same := held.stream
      simp only [accepted, record, setChannel, setState] at same ⊢
      simpa [eventBytes] using same
  · obtain rfl := Option.some.inj hc
    exact ⟨wellFormed, held.phase.imp (fun up => ⟨up.1, up.2.of_eq rfl rfl⟩) id, waiting,
      held.user, held.stream⟩

theorem Answered.write (held : Answered h first s) (answer : WriteResult) :
    Answered h first { s with conn := s.conn.handleWrite answer } := by
  rcases held.phase with ⟨connected, synced⟩ | ⟨closed, quiet⟩
  · obtain ⟨kept, n, trace, left⟩ := handleWrite_stream synced answer
    refine ⟨(handleWrite_input s.conn answer) ▸ held.input,
      .inl ⟨(handleWrite_state synced answer).trans connected, kept⟩, ?_, held.user, ?_⟩
    · rw [handleWrite_input]
      exact held.waiting
    · rw [trace, left, List.append_assoc, List.take_append_drop]
      exact held.stream
  · have same : s.conn.handleWrite answer = s.conn := by
      rw [TcpConnection.handleWrite, quiet]
      rfl
    rw [same]
    exact held

theorem Answered.next {a : Action} (held : Answered h first s) (working : Working s a)
    (hn : ConnectionRequests.next h s a = some t) : Answered h first t := by
  cases a with
  | handleRead r pieces onDown =>
    obtain ⟨content, visible, hn⟩ := Option.bind_eq_some_iff.mp hn
    obtain ⟨⟨b, n, e⟩, hb, rfl⟩ := Option.map_eq_some_iff.mp visible
    obtain ⟨c, hc, hn⟩ := Option.bind_eq_some_iff.mp hn
    split_ifs at hn with closed none_ replies
    · obtain rfl := Option.some.inj hn
      exact held.silent working.1 none_ hb rfl hc
    · obtain rfl := Option.some.inj hn
      exact held.read working closed none_ hb hc replies
  | handleWrite answer =>
    cases hn
    exact held.write answer

theorem answered (reached : (conversation h first).Reachable Working s) : Answered h first s :=
  reached.invariant (fun _ start => answered_initial start)
    fun _ _ _ held working hn => held.next working hn

/-- In every run the bytes the kernel took and those that wait are the answers to the bytes
received, as if these had come in one piece and gone in one piece; and `inputBuffer_` holds what a
single call would have left. -/
theorem answers_uncut (reached : (conversation h first).Reachable Working s) :
    accepted s.conn.trace ++ s.conn.outputBuffer_.readable =
        (h.handle first s.received).reply ∧
      s.conn.inputBuffer_.readable = h.left first s.received ∧
      s.user = (h.handle first s.received).state ∧
      (s.conn.state_ = .kConnected →
        (s.conn.channel_.isWriting = true ↔ s.conn.outputBuffer_.readable ≠ [])) := by
  have held := answered reached
  refine ⟨held.stream, held.waiting, held.user, fun up => ?_⟩
  rcases held.phase with ⟨-, synced⟩ | ⟨closed, -⟩
  · exact synced.interest
  · rw [closed] at up
    cases up

end Answers

def sample : Conversation Unit := ⟨ConnectionOutput.sample.conn, (), []⟩

theorem sample_initial : (conversation (Handler.echo Byte) ()).init sample :=
  ⟨rfl, rfl, 1, 7, _, true, true, 64, rfl⟩

instance (s : Conversation σ) (a : Action) : Decidable (Working s a) := by
  cases a <;> unfold Working <;> infer_instance

/-- Two reads, the first answered in two pieces; the kernel takes one byte, and later two. -/
theorem answers_uncut_echo : ∃ s : Conversation Unit,
    (conversation (Handler.echo Byte) ()).Reachable Working s ∧
      (s.received, accepted s.conn.trace, s.conn.outputBuffer_.readable) =
        ([1, 2, 3, 4], [1, 2, 3], [4]) ∧
      accepted s.conn.trace ++ s.conn.outputBuffer_.readable = s.received := by
  have run : ((conversation (Handler.echo Byte) ()).execute Working sample
      [.handleRead (.received [1, 2, 3]) [([1, 2], .wrote 1), ([3], .wrote 1)] [],
        .handleRead (.received [4]) [([4], .wrote 1)] [], .handleWrite (.wrote 2)]).map
      (fun s => (s.received, accepted s.conn.trace, s.conn.outputBuffer_.readable)) =
      some ([1, 2, 3, 4], [1, 2, 3], [4]) := by decide +kernel
  obtain ⟨s, reached, ends⟩ := System.Reachable.of_replay sample_initial run
  exact ⟨s, reached, ends, (answers_uncut reached).1⟩

end TinyNetwork.ConnectionRequests

import TinyNetwork.TcpConnection
import TinyNetwork.FifoTransfer

/-! The output side of a connection. `sendInLoop` writes directly when nothing waits
and queues the rest, `handleWrite` drains the queue; both write the same
descriptor. Each of them moves bytes through one first-in first-out stream, so
the bytes the kernel took followed by `outputBuffer_` are what was sent, and the
channel asks for writability exactly while something waits. -/
namespace TinyNetwork.ConnectionOutput
open Transition FifoTransfer MachineWord TcpConnection EPollPoller

def isWrite : Event → Bool
  | .write _ => true
  | _ => false

def isNotification : Functor → Bool
  | .writeCompleteCallback => true
  | .highWaterMarkCallback _ => true
  | _ => false

def eventBytes : Event → List Byte
  | .write bytes => bytes
  | _ => []

def accepted (trace : List Event) : List Byte := trace.flatMap eventBytes

theorem accepted_append (pre post : List Event) :
    accepted (pre ++ post) = accepted pre ++ accepted post := List.flatMap_append

def taken (data : List Byte) : WriteResult → List Byte
  | .wrote n => data.take n
  | .failed _ => []

theorem write_eq (c : TcpConnection) (data : List Byte) (answer : WriteResult) :
    c.write data answer = c.record (.write (taken data answer)) := by
  cases answer <;> rfl

/-- What an output operation may do besides moving bytes: record writes, queue
notifications and change the write interest of a watched channel. -/
structure Frame (c c' : TcpConnection) : Prop where
  state : c'.state_ = c.state_
  writes : ∃ events, c'.trace = c.trace ++ events ∧ ∀ e ∈ events, isWrite e = true
  queued : ∃ functors, c'.pendingFunctors_ = c.pendingFunctors_ ++ functors ∧
    ∀ f ∈ functors, isNotification f = true
  watched : Watched c.poller_ c.channel_ → Watched c'.poller_ c'.channel_

theorem Frame.refl (c : TcpConnection) : Frame c c :=
  ⟨rfl, ⟨[], by simp, by simp⟩, ⟨[], by simp, by simp⟩, id⟩

theorem Frame.trans {c d e : TcpConnection} (h : Frame c d) (k : Frame d e) : Frame c e := by
  obtain ⟨events, ht, hw⟩ := h.writes
  obtain ⟨events', ht', hw'⟩ := k.writes
  obtain ⟨functors, hp, hq⟩ := h.queued
  obtain ⟨functors', hp', hq'⟩ := k.queued
  refine ⟨k.state.trans h.state, ⟨events ++ events', ?_, ?_⟩, ⟨functors ++ functors', ?_, ?_⟩,
    fun w => k.watched (h.watched w)⟩
  · rw [ht', ht, List.append_assoc]
  · intro e he
    exact (List.mem_append.mp he).elim (hw e) (hw' e)
  · rw [hp', hp, List.append_assoc]
  · intro f hf
    exact (List.mem_append.mp hf).elim (hq f) (hq' f)

theorem frame_write (c : TcpConnection) (data : List Byte) (answer : WriteResult) :
    Frame c (c.write data answer) := by
  rw [write_eq]
  exact ⟨rfl, ⟨[_], rfl, by simp [isWrite]⟩, ⟨[], by simp [record], by simp⟩, id⟩

theorem frame_queue (c : TcpConnection) {f : Functor} (h : isNotification f = true) :
    Frame c (c.queueInLoop f) :=
  ⟨rfl, ⟨[], by simp [queueInLoop], by simp⟩, ⟨[f], rfl, by simpa using h⟩, id⟩

theorem frame_noteWriteComplete (c : TcpConnection) : Frame c c.noteWriteComplete := by
  unfold noteWriteComplete
  split_ifs
  · exact frame_queue c rfl
  · exact Frame.refl c

theorem frame_noteHighWaterMark (c : TcpConnection) (n : ℕ) :
    Frame c (c.noteHighWaterMark n) := by
  unfold noteHighWaterMark
  dsimp only
  split_ifs
  · exact frame_queue c rfl
  · exact Frame.refl c

theorem frame_output (c : TcpConnection) (b : Buffer) : Frame c { c with outputBuffer_ := b } :=
  ⟨rfl, ⟨[], by simp, by simp⟩, ⟨[], by simp, by simp⟩, id⟩

theorem frame_enableWriting (c : TcpConnection) :
    Frame c (c.setChannel (c.poller_.enableWriting c.channel_)) :=
  ⟨rfl, ⟨[], by simp [setChannel], by simp⟩, ⟨[], by simp [setChannel], by simp⟩,
    fun w => enableWriting_watched w⟩

theorem frame_disableWriting (c : TcpConnection) :
    Frame c (c.setChannel (c.poller_.disableWriting c.channel_)) :=
  ⟨rfl, ⟨[], by simp [setChannel], by simp⟩, ⟨[], by simp [setChannel], by simp⟩,
    fun w => disableWriting_watched w⟩

theorem sendRest_frame {c c' : TcpConnection} {data : List Byte} {nwrote remaining : ℕ}
    (h : c.sendRest data nwrote remaining = some c') : Frame c c' := by
  unfold sendRest at h
  split_ifs at h
  · obtain ⟨b, -, rfl⟩ := Option.map_eq_some_iff.mp h
    have queued := (frame_noteHighWaterMark c remaining).trans (frame_output _ b)
    dsimp only
    split_ifs
    · exact queued
    · exact queued.trans (frame_enableWriting _)
  · exact Option.some.inj h ▸ Frame.refl c

theorem sendInLoop_frame {c c' : TcpConnection} {data : List Byte} {answer : WriteResult}
    (h : c.sendInLoop data answer = some c') : Frame c c' := by
  unfold sendInLoop at h
  split_ifs at h with closed direct
  · exact Option.some.inj h ▸ Frame.refl c
  · have written := frame_write c data answer
    cases answer with
    | wrote n =>
      dsimp only at h
      refine written.trans (Frame.trans ?_ (sendRest_frame h))
      split_ifs
      · exact frame_noteWriteComplete _
      · exact Frame.refl _
    | failed errno =>
      dsimp only at h
      split_ifs at h
      · exact Option.some.inj h ▸ written
      · exact written.trans (sendRest_frame h)
  · exact sendRest_frame h

/-- The output buffer is well formed and the channel asks for writability exactly
while it has readable bytes. -/
structure Synced (c : TcpConnection) : Prop where
  wellFormed : c.outputBuffer_.WellFormed
  interest : c.channel_.isWriting = true ↔ c.outputBuffer_.readable ≠ []

theorem Synced.of_eq {c d : TcpConnection} (h : Synced c)
    (hb : d.outputBuffer_ = c.outputBuffer_) (hc : d.channel_ = c.channel_) : Synced d :=
  ⟨hb ▸ h.wellFormed, by rw [hb, hc]; exact h.interest⟩

theorem noteWriteComplete_fields (c : TcpConnection) :
    c.noteWriteComplete.outputBuffer_ = c.outputBuffer_ ∧
      c.noteWriteComplete.channel_ = c.channel_ ∧ c.noteWriteComplete.trace = c.trace ∧
      c.noteWriteComplete.state_ = c.state_ := by
  unfold noteWriteComplete
  split_ifs <;> exact ⟨rfl, rfl, rfl, rfl⟩

theorem noteHighWaterMark_fields (c : TcpConnection) (n : ℕ) :
    (c.noteHighWaterMark n).outputBuffer_ = c.outputBuffer_ ∧
      (c.noteHighWaterMark n).channel_ = c.channel_ ∧
      (c.noteHighWaterMark n).trace = c.trace := by
  unfold noteHighWaterMark
  dsimp only
  split_ifs <;> exact ⟨rfl, rfl, rfl⟩

def Answers (offered : ℕ) : WriteResult → Prop
  | .wrote n => n ≤ offered
  | .failed errno => errno ≠ EPIPE ∧ errno ≠ ECONNRESET

def leftover (c : TcpConnection) (data : List Byte) : WriteResult → ℕ
  | .wrote n =>
    if c.channel_.isWriting = false ∧ c.outputBuffer_.readableBytes = 0 then data.length - n
    else data.length
  | .failed _ => data.length

/-- The message has a length, and the part to append fits `makeSpace`'s `int`. -/
def Fits (c : TcpConnection) (data : List Byte) (answer : WriteResult) : Prop :=
  data.length < 2 ^ 64 ∧ c.outputBuffer_.Fits (leftover c data answer)

instance (c : TcpConnection) (data : List Byte) (answer : WriteResult) :
    Decidable (Fits c data answer) := by
  unfold Fits
  infer_instance

theorem fits_of_short (c : TcpConnection) {data : List Byte} (answer : WriteResult)
    (h : data.length < 2 ^ 31) : Fits c data answer := by
  have part : leftover c data answer ≤ data.length := by
    unfold leftover
    split <;> [split_ifs; skip] <;> omega
  exact ⟨by omega, fun _ => by omega⟩

theorem sendRest_stream {c c' : TcpConnection} {data : List Byte} {nwrote : ℕ} (h : Synced c)
    (hfits : c.outputBuffer_.Fits (data.length - nwrote))
    (hc : c.sendRest data nwrote (data.length - nwrote) = some c') :
    Synced c' ∧ c'.trace = c.trace ∧
      c'.outputBuffer_.readable = c.outputBuffer_.readable ++ data.drop nwrote := by
  unfold sendRest at hc
  obtain ⟨hbuffer, hchannel, htrace⟩ := noteHighWaterMark_fields c (data.length - nwrote)
  have whole : (data.drop nwrote).take (data.length - nwrote) = data.drop nwrote :=
    List.take_of_length_le (by rw [List.length_drop])
  split_ifs at hc with left
  · obtain ⟨b, hb, rfl⟩ := Option.map_eq_some_iff.mp hc
    rw [hbuffer, whole] at hb
    obtain ⟨hwf, content⟩ :=
      Buffer.append_spec h.wellFormed (List.length_drop ▸ hfits) hb
    have waiting : b.readable ≠ [] := by
      rw [content]
      intro empty
      have size := congrArg List.length empty
      simp only [List.length_append, List.length_drop, List.length_nil] at size
      omega
    dsimp only
    split_ifs with writing
    · exact ⟨⟨hwf, by simp [writing, waiting]⟩, htrace, content⟩
    · exact ⟨⟨hwf, by simp [setChannel, waiting]⟩, htrace, content⟩
  · have nothing : data.drop nwrote = [] := List.drop_eq_nil_of_le (by omega)
    rw [← Option.some.inj hc, nothing, List.append_nil]
    exact ⟨h, rfl, rfl⟩

/-- One `sendInLoop` is one hand-over: the message joins what waits and a prefix of
the whole is taken. -/
theorem sendInLoop_stream {c c' : TcpConnection} {data : List Byte} {answer : WriteResult}
    (h : Synced c) (hlive : c.state_ ≠ .kDisconnected) (hfits : Fits c data answer)
    (hanswer : Answers data.length answer) (hc : c.sendInLoop data answer = some c') :
    Synced c' ∧ ∃ n,
      accepted c'.trace = accepted c.trace ++ (c.outputBuffer_.readable ++ data).take n ∧
      c'.outputBuffer_.readable = (c.outputBuffer_.readable ++ data).drop n := by
  have later : ∀ {d : TcpConnection}, Synced d → d.outputBuffer_.Fits data.length →
      d.sendRest data 0 data.length = some c' →
      Synced c' ∧ c'.trace = d.trace ∧
        c'.outputBuffer_.readable = d.outputBuffer_.readable ++ data := by
    intro d hd hfit hrest
    simpa using sendRest_stream hd hfit hrest
  obtain ⟨hlen, hfits⟩ := hfits
  unfold sendInLoop at hc
  rw [if_neg hlive] at hc
  split_ifs at hc with direct
  · have empty : c.outputBuffer_.readable = [] :=
      (Buffer.readableBytes_eq_zero h.wellFormed).mp direct.2
    rw [empty, List.nil_append]
    rw [write_eq] at hc
    cases answer with
    | wrote nwrote =>
      have fits : nwrote ≤ data.length := hanswer
      dsimp only at hc
      rw [sizeSub_of_le fits hlen] at hc
      rw [leftover, if_pos direct] at hfits
      have fields : ∀ d, d = (if data.length - nwrote = 0 then
          (c.record (.write (taken data (.wrote nwrote)))).noteWriteComplete
          else c.record (.write (taken data (.wrote nwrote)))) →
          d.outputBuffer_ = c.outputBuffer_ ∧ d.channel_ = c.channel_ ∧
            d.trace = c.trace ++ [.write (data.take nwrote)] := by
        rintro d rfl
        split_ifs
        · obtain ⟨hb, hch, ht, -⟩ :=
            noteWriteComplete_fields (c.record (.write (taken data (.wrote nwrote))))
          exact ⟨hb, hch, ht⟩
        · exact ⟨rfl, rfl, rfl⟩
      obtain ⟨hb, hch, ht⟩ := fields _ rfl
      obtain ⟨hs, htrace, content⟩ := sendRest_stream (h.of_eq hb hch) (hb ▸ hfits) hc
      refine ⟨hs, nwrote, ?_, ?_⟩
      · rw [htrace, ht, accepted_append]
        simp [accepted, eventBytes]
      · rw [content, hb, empty, List.nil_append]
    | failed errno =>
      dsimp only at hc
      have usable : ¬(errno ≠ EWOULDBLOCK ∧ (errno = EPIPE ∨ errno = ECONNRESET)) := by
        rintro ⟨-, broken⟩
        exact broken.elim hanswer.1 hanswer.2
      rw [if_neg usable] at hc
      have hd : Synced (c.record (.write [])) := h.of_eq rfl rfl
      obtain ⟨hs, htrace, content⟩ := later hd hfits hc
      refine ⟨hs, 0, ?_, ?_⟩
      · rw [htrace]
        simp [record, accepted, eventBytes]
      · rw [content]
        exact congrArg (· ++ data) empty
  · have whole : leftover c data answer = data.length := by
      cases answer with
      | wrote n => exact if_neg direct
      | failed errno => rfl
    obtain ⟨hs, htrace, content⟩ := later h (whole ▸ hfits) hc
    exact ⟨hs, 0, by rw [htrace]; simp, by rw [content]; simp⟩

section Drain
variable (c : TcpConnection) (n : ℕ)

def moved : TcpConnection :=
  { c.write c.outputBuffer_.readable (.wrote n) with
    outputBuffer_ := c.outputBuffer_.retrieve n }

def drained : TcpConnection :=
  ((moved c n).setChannel (c.poller_.disableWriting c.channel_)).noteWriteComplete

theorem moved_frame : Frame c (moved c n) :=
  (frame_write c _ (.wrote n)).trans (frame_output _ _)

theorem drained_frame : Frame c (drained c n) :=
  ((moved_frame c n).trans (frame_disableWriting (moved c n))).trans (frame_noteWriteComplete _)

theorem drained_fields :
    (drained c n).outputBuffer_ = c.outputBuffer_.retrieve n ∧
      (drained c n).channel_.isWriting = false ∧
      (drained c n).trace = c.trace ++ [.write (c.outputBuffer_.readable.take n)] ∧
      (drained c n).state_ = c.state_ := by
  obtain ⟨hb, hch, ht, hs⟩ :=
    noteWriteComplete_fields ((moved c n).setChannel (c.poller_.disableWriting c.channel_))
  refine ⟨hb, ?_, ht, hs⟩
  rw [drained, hch]
  exact disableWriting_isWriting _ _

end Drain

def Drains (c : TcpConnection) (answer : WriteResult) : Prop :=
  c.channel_.isWriting = true ∧
    ∃ n, answer = .wrote n ∧ 0 < n ∧ c.outputBuffer_.readable.length ≤ n

theorem handleWrite_wrote {c : TcpConnection} {n : ℕ} (writing : c.channel_.isWriting = true)
    (hpos : 0 < n) :
    c.handleWrite (.wrote n) =
      if (c.outputBuffer_.retrieve n).readableBytes = 0 then
        if (drained c n).state_ = .kDisconnecting then (drained c n).shutdownInLoop
        else drained c n
      else moved c n := by
  unfold handleWrite
  dsimp only
  rw [if_pos writing, if_pos hpos]
  rfl

theorem handleWrite_drains {c : TcpConnection} {n : ℕ} (h : Synced c)
    (hd : Drains c (.wrote n)) :
    c.handleWrite (.wrote n) =
      if c.state_ = .kDisconnecting then (drained c n).record .shutdownWrite
      else drained c n := by
  obtain ⟨writing, m, hm, hpos, hall⟩ := hd
  cases hm
  have empty : (c.outputBuffer_.retrieve n).readableBytes = 0 := by
    rw [Buffer.readableBytes_eq_zero (Buffer.retrieve_wellFormed h.wellFormed n),
      Buffer.retrieve_readable h.wellFormed]
    exact List.drop_eq_nil_of_le hall
  obtain ⟨-, quiet, -, state⟩ := drained_fields c n
  rw [handleWrite_wrote writing hpos, if_pos empty, state, shutdownInLoop, quiet]
  rfl

theorem handleWrite_partial {c : TcpConnection} {answer : WriteResult} (h : Synced c)
    (hd : ¬Drains c answer) :
    c.handleWrite answer = c ∨
      (taken c.outputBuffer_.readable answer = [] ∧
        c.handleWrite answer = c.write c.outputBuffer_.readable answer) ∨
      ∃ n, answer = .wrote n ∧ n < c.outputBuffer_.readable.length ∧
        c.handleWrite answer = moved c n := by
  by_cases writing : c.channel_.isWriting = true
  · right
    cases answer with
    | failed errno =>
      left
      refine ⟨rfl, ?_⟩
      unfold handleWrite
      rw [if_pos writing]
    | wrote n =>
      by_cases hpos : 0 < n
      · right
        have short : n < c.outputBuffer_.readable.length := by
          by_contra long
          exact hd ⟨writing, n, rfl, hpos, by omega⟩
        have left : (c.outputBuffer_.retrieve n).readableBytes ≠ 0 := by
          rw [Ne, Buffer.readableBytes_eq_zero (Buffer.retrieve_wellFormed h.wellFormed n),
            Buffer.retrieve_readable h.wellFormed, List.drop_eq_nil_iff]
          omega
        exact ⟨n, rfl, short, by rw [handleWrite_wrote writing hpos, if_neg left]⟩
      · left
        have zero : n = 0 := by omega
        subst zero
        refine ⟨by simp [taken], ?_⟩
        unfold handleWrite
        rw [if_pos writing]
        rfl
  · left
    unfold handleWrite
    rw [if_neg writing]

theorem moved_synced {c : TcpConnection} {n : ℕ} (h : Synced c)
    (writing : c.channel_.isWriting = true) (hn : n < c.outputBuffer_.readable.length) :
    Synced (moved c n) := by
  refine ⟨Buffer.retrieve_wellFormed h.wellFormed n, ?_⟩
  have waiting : (c.outputBuffer_.retrieve n).readable ≠ [] := by
    rw [Buffer.retrieve_readable h.wellFormed, Ne, List.drop_eq_nil_iff]
    omega
  exact iff_of_true writing waiting

theorem drained_synced {c : TcpConnection} {n : ℕ} (h : Synced c)
    (hn : c.outputBuffer_.readable.length ≤ n) : Synced (drained c n) := by
  obtain ⟨hb, quiet, -, -⟩ := drained_fields c n
  refine ⟨hb ▸ Buffer.retrieve_wellFormed h.wellFormed n, ?_⟩
  rw [hb, quiet, Buffer.retrieve_readable h.wellFormed, List.drop_eq_nil_of_le hn]
  simp

/-- One `handleWrite` is one delivery from the front of what waits. -/
theorem handleWrite_stream {c : TcpConnection} (h : Synced c) (answer : WriteResult) :
    Synced (c.handleWrite answer) ∧ ∃ n,
      accepted (c.handleWrite answer).trace =
        accepted c.trace ++ c.outputBuffer_.readable.take n ∧
      (c.handleWrite answer).outputBuffer_.readable = c.outputBuffer_.readable.drop n := by
  by_cases hd : Drains c answer
  · obtain ⟨writing, n, rfl, hpos, hall⟩ := hd
    obtain ⟨hb, -, ht, -⟩ := drained_fields c n
    have sync := drained_synced h hall
    rw [handleWrite_drains h ⟨writing, n, rfl, hpos, hall⟩]
    have content := Buffer.retrieve_readable h.wellFormed n
    split_ifs
    · refine ⟨sync.of_eq rfl rfl, n, ?_, hb ▸ content⟩
      simp [record, ht, accepted, eventBytes]
    · refine ⟨sync, n, ?_, hb ▸ content⟩
      simp [ht, accepted, eventBytes]
  · rcases handleWrite_partial h hd with same | ⟨nothing, written⟩ | ⟨n, rfl, hn, partly⟩
    · rw [same]
      exact ⟨h, 0, by simp, by simp⟩
    · rw [written, write_eq, nothing]
      exact ⟨h.of_eq rfl rfl, 0, by simp [record, accepted, eventBytes], by simp [record]⟩
    · have writing : c.channel_.isWriting = true := by
        rw [h.interest]
        intro empty
        simp [empty] at hn
      rw [partly]
      refine ⟨moved_synced h writing hn, n, ?_, Buffer.retrieve_readable h.wellFormed n⟩
      simp [moved, TcpConnection.write, record, accepted, eventBytes]

theorem handleWrite_state {c : TcpConnection} (h : Synced c) (answer : WriteResult) :
    (c.handleWrite answer).state_ = c.state_ := by
  by_cases hd : Drains c answer
  · obtain ⟨writing, n, rfl, hpos, hall⟩ := hd
    rw [handleWrite_drains h ⟨writing, n, rfl, hpos, hall⟩]
    split_ifs
    · exact (drained_frame c n).state
    · exact (drained_frame c n).state
  · rcases handleWrite_partial h hd with same | ⟨-, written⟩ | ⟨n, -, -, partly⟩
    · rw [same]
    · rw [written, write_eq]
      rfl
    · rw [partly]
      exact (moved_frame c n).state

theorem shutdownInLoop_fields (c : TcpConnection) :
    c.shutdownInLoop.outputBuffer_ = c.outputBuffer_ ∧ c.shutdownInLoop.channel_ = c.channel_ ∧
      accepted c.shutdownInLoop.trace = accepted c.trace ∧
      c.shutdownInLoop.state_ = c.state_ := by
  unfold shutdownInLoop
  split_ifs
  · exact ⟨rfl, rfl, rfl, rfl⟩
  · exact ⟨rfl, rfl, by simp [record, accepted, eventBytes], rfl⟩

section Run

inductive Action where
  | sendInLoop (data : List Byte) (answer : WriteResult)
  | handleWrite (answer : WriteResult)
  | shutdown (inLoopThread : Bool)

structure State where
  conn : TcpConnection
  sent : List Byte

def next (s : State) : Action → Option State
  | .sendInLoop data answer =>
    (s.conn.sendInLoop data answer).map fun c => ⟨c, s.sent ++ data⟩
  | .handleWrite answer => some { s with conn := s.conn.handleWrite answer }
  | .shutdown inLoopThread => some { s with conn := s.conn.shutdown inLoopThread }

def output : System State Action where
  init s := s.sent = [] ∧ ∃ address sockfd poller wc hw mark,
    (construct address sockfd poller wc hw mark).connectEstablished [] = some s.conn
  next := next

def Working (s : State) : Action → Prop
  | .sendInLoop data answer => data.length < 2 ^ 31 ∧ Answers data.length answer
  | .handleWrite answer => Answers s.conn.outputBuffer_.readable.length answer
  | .shutdown _ => True

instance (offered : ℕ) (answer : WriteResult) : Decidable (Answers offered answer) := by
  cases answer <;> unfold Answers <;> infer_instance

structure Inv (s : State) : Prop where
  live : s.conn.state_ ≠ .kDisconnected
  synced : Synced s.conn

def stream (s : State) : Transfer Byte :=
  ⟨accepted s.conn.trace, s.conn.outputBuffer_.readable, s.sent⟩

theorem established_inv {s : State} (h : output.init s) :
    Inv s ∧ stream s = ⟨[], [], []⟩ := by
  obtain ⟨hsent, address, sockfd, poller, wc, hw, mark, hc⟩ := h
  have shape := Option.some.inj hc
  refine ⟨⟨?_, ?_, ?_⟩, ?_⟩
  · rw [← shape]
    simp [record, setChannel, setState]
  · rw [← shape]
    exact Buffer.fresh_wellFormed
  · have idle : (construct address sockfd poller wc hw mark).channel_.isWriting = false := by
      simp [construct, Channel.construct, Channel.isWriting]
    rw [← shape]
    simp only [record, setChannel, enableReading_isWriting]
    exact iff_of_false (by simpa [Channel.isWriting, setState] using idle)
      (by simp [construct, setState])
  · rw [stream, hsent, ← shape]
    simp [record, setChannel, setState, construct, accepted, eventBytes]

theorem shutdown_inv {s : State} (inLoopThread : Bool) (h : Inv s) :
    Inv { s with conn := s.conn.shutdown inLoopThread } ∧
      stream { s with conn := s.conn.shutdown inLoopThread } = stream s := by
  unfold TcpConnection.shutdown
  split_ifs with connected inLoop
  · obtain ⟨hb, hch, ht, hs⟩ := shutdownInLoop_fields (s.conn.setState .kDisconnecting)
    refine ⟨⟨?_, h.synced.of_eq hb hch⟩, ?_⟩
    · simp only [hs]
      simp [setState]
    · simp only [stream, ht, hb]
      rfl
  · exact ⟨⟨by simp [queueInLoop, setState], h.synced.of_eq rfl rfl⟩, rfl⟩
  · exact ⟨h, rfl⟩

theorem next_inv {s t : State} {a : Action} (h : Inv s) (ha : Working s a)
    (hn : output.next s a = some t) : Inv t ∧ (transfer Byte).Path Any (stream s) (stream t) := by
  cases a with
  | sendInLoop data answer =>
    obtain ⟨c, hc, rfl⟩ := Option.map_eq_some_iff.mp hn
    obtain ⟨hs, n, htaken, hleft⟩ :=
      sendInLoop_stream h.synced h.live (fits_of_short _ _ ha.1) ha.2 hc
    refine ⟨⟨(sendInLoop_frame hc).state ▸ h.live, hs⟩, ?_⟩
    have image : stream ⟨c, s.sent ++ data⟩ = ⟨(stream s).delivered ++
        ((stream s).waiting ++ data).take n, ((stream s).waiting ++ data).drop n,
        (stream s).submitted ++ data⟩ := by
      rw [stream, htaken, hleft]
      rfl
    exact image ▸ path_submit_deliver (stream s) data n
  | handleWrite answer =>
    cases hn
    obtain ⟨hs, n, htaken, hleft⟩ := handleWrite_stream h.synced answer
    refine ⟨⟨?_, hs⟩, ?_⟩
    · rw [handleWrite_state h.synced]
      exact h.live
    · have image : stream { s with conn := s.conn.handleWrite answer } =
          (stream s).move (.deliver n) := by
        rw [stream, htaken, hleft]
        rfl
      exact image ▸ path_move (stream s) (.deliver n)
  | shutdown inLoopThread =>
    cases hn
    obtain ⟨hi, hstream⟩ := shutdown_inv inLoopThread h
    exact ⟨hi, hstream ▸ System.Path.refl _⟩

theorem output_inv {s : State} (h : output.Reachable Working s) : Inv s :=
  h.invariant (fun _ hi => (established_inv hi).1) fun _ _ _ hs ha hn => (next_inv hs ha hn).1

/-- The connection's output refines the abstract hand-over of bytes. -/
theorem output_refines {s : State} (h : output.Reachable Working s) :
    (transfer Byte).Reachable Any (stream s) :=
  h.simulate stream (fun _ hi => (established_inv hi).2)
    fun _ _ _ hs ha hn => (next_inv (output_inv hs) ha hn).2

/-- In every state of every run of `sendInLoop` and `handleWrite` on an established
connection, the bytes the kernel took followed by those waiting in `outputBuffer_`
are the data sent so far, and write interest is on exactly while bytes wait. -/
theorem output_stream_integrity {s : State} (h : output.Reachable Working s) :
    accepted s.conn.trace ++ s.conn.outputBuffer_.readable = s.sent ∧
      (s.conn.channel_.isWriting = true ↔ s.conn.outputBuffer_.readable ≠ []) :=
  ⟨conserved (output_refines h), (output_inv h).synced.interest⟩

def sample : State where
  conn := ((construct 1 7 EPollPoller.construct true true 64).connectEstablished
    []).getD (construct 1 7 EPollPoller.construct true true 64)
  sent := []

theorem sample_init : output.init sample :=
  ⟨rfl, 1, 7, _, true, true, 64, rfl⟩

instance (s : State) (a : Action) : Decidable (Working s a) := by
  cases a <;> unfold Working <;> infer_instance

theorem output_stream_integrity_partial :
    ∃ s, output.Reachable Working s ∧ s.sent = [1, 2, 3, 4, 5] ∧
      accepted s.conn.trace ++ s.conn.outputBuffer_.readable = s.sent ∧
      (s.conn.channel_.isWriting = true ↔ s.conn.outputBuffer_.readable ≠ []) := by
  have run : (output.execute Working sample
      [.sendInLoop [1, 2, 3] (.wrote 1), .handleWrite (.failed EWOULDBLOCK),
        .sendInLoop [4, 5] (.wrote 2), .handleWrite (.wrote 3)]).map State.sent =
      some [1, 2, 3, 4, 5] := by decide +kernel
  obtain ⟨s, reached, sent⟩ := System.Reachable.of_replay sample_init run
  exact ⟨s, reached, sent, output_stream_integrity reached⟩

end Run

end TinyNetwork.ConnectionOutput

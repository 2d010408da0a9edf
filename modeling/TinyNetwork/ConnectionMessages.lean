import TinyNetwork.ConnectionShutdown

/-! `send(Buffer*)` called from any threads on a connection that stays connected. Each
thread fills buffers of its own; a call reads `state_` and then hands the readable
bytes to `sendInLoop`, on the spot in the loop thread and through the queue elsewhere.
The queue is a FIFO and the output of the connection is one stream, so the messages
come out whole, and those of one thread in the order of its calls. -/
namespace TinyNetwork.ConnectionMessages
open Transition MachineWord MemoryRegion TcpConnection ConnectionOutput ConnectionShutdown

def content (b : Buffer) : List Byte :=
  (peek b.buffer_ b.readerIndex_ b.readableBytes).filterMap id

/-- A buffer in use stands for its readable bytes. -/
theorem content_eq {b : Buffer} (h : b.WellFormed) : content b = b.readable := by
  have all : peek b.buffer_ b.readerIndex_ b.readableBytes = b.readable.map some :=
    Buffer.retrieveAllAsString_fst h
  rw [content, all, List.filterMap_map]
  exact List.filterMap_some

section Senders
variable {Θ : Type*} [DecidableEq Θ]

def ofThread (messages : List (Θ × List Byte)) (t : Θ) : List (List Byte) :=
  (messages.filter fun m => m.1 = t).map Prod.snd

theorem ofThread_append (ms ns : List (Θ × List Byte)) (t : Θ) :
    ofThread (ms ++ ns) t = ofThread ms t ++ ofThread ns t := by
  simp only [ofThread, List.filter_append, List.map_append]

theorem ofThread_self (t : Θ) (m : List Byte) : ofThread [(t, m)] t = [m] := by
  simp [ofThread]

theorem ofThread_other {t u : Θ} (h : u ≠ t) (m : List Byte) : ofThread [(u, m)] t = [] := by
  simp [ofThread, h]

theorem ofThread_absent {messages : List (Θ × List Byte)} {t : Θ}
    (h : ∀ m ∈ messages, m.1 ≠ t) : ofThread messages t = [] := by
  induction messages with
  | nil => rfl
  | cons m ms ih =>
    rw [← List.singleton_append, ofThread_append, ofThread_other (h m List.mem_cons_self),
      ih fun n hn => h n (List.mem_cons_of_mem _ hn)]
    rfl

end Senders

inductive Pc where
  | idle
  | checked
  deriving DecidableEq

/-- `issued` holds each thread's messages in the order of its calls, `delivered` the
messages that reached `sendInLoop` and `queued` those on their way, with their senders. -/
structure State (Θ : Type*) where
  conn : TcpConnection
  functors : List Functor
  pc : Θ → Pc
  buffers : Θ → { b : Buffer // b.WellFormed }
  issued : Θ → List (List Byte)
  delivered : List (Θ × List Byte)
  queued : List (Θ × List Byte)

inductive Action (Θ : Type*) where
  | fill (t : Θ) (b : { b : Buffer // b.WellFormed })
  | sendCheck (t : Θ)
  | sendRun (t : Θ) (answer : WriteResult)
  | doPendingFunctors
  | runFunctor (answer : WriteResult)
  | handleWrite (answer : WriteResult)

variable {Θ : Type*} [DecidableEq Θ] (loopThread : Θ)

def State.goto (s : State Θ) (t : Θ) (p : Pc) : State Θ :=
  { s with pc := Function.update s.pc t p }

def State.issue (s : State Θ) (t : Θ) (message : List Byte)
    (b : { b : Buffer // b.WellFormed }) : State Θ :=
  { s.goto t .idle with
    buffers := Function.update s.buffers t b
    issued := Function.update s.issued t (s.issued t ++ [message]) }

/-- `sendRun` is the rest of `send(Buffer*)` behind the check of `state_`. Notifications
run user code, whose calls are steps of their own. -/
def next (s : State Θ) : Action Θ → Option (State Θ)
  | .fill t b =>
    if s.pc t = .idle then some { s with buffers := Function.update s.buffers t b } else none
  | .sendCheck t =>
    if s.pc t = .idle then
      some (if s.conn.state_ = .kConnected then s.goto t .checked else s)
    else none
  | .sendRun t answer =>
    if s.pc t = .checked then
      let buf := s.buffers t
      let message := content buf.1
      if t = loopThread then
        (s.conn.sendInLoop message answer).map fun c =>
          { s.issue t message ⟨buf.1.retrieveAll, Buffer.retrieveAll_wellFormed buf.2⟩ with
            conn := c
            delivered := s.delivered ++ [(t, message)] }
      else
        some { s.issue t message ⟨buf.1.retrieveAllAsString.2,
            Buffer.retrieve_wellFormed buf.2 _⟩ with
          conn := s.conn.queueInLoop (.sendInLoop message)
          queued := s.queued ++ [(t, message)] }
    else none
  | .doPendingFunctors =>
    if s.pc loopThread = .idle ∧ s.functors = [] then
      some { s with
        functors := s.conn.pendingFunctors_
        conn := { s.conn with pendingFunctors_ := [] } }
    else none
  | .runFunctor answer =>
    if s.pc loopThread = .idle then
      match s.functors with
      | [] => none
      | f :: rest =>
        let sent := if (message? f).isSome then 1 else 0
        (s.conn.runFunctor answer [] f).map fun c =>
          { s with
            conn := c
            functors := rest
            delivered := s.delivered ++ s.queued.take sent
            queued := s.queued.drop sent }
    else none
  | .handleWrite answer =>
    if s.pc loopThread = .idle ∧ s.functors = [] then
      some { s with conn := s.conn.handleWrite answer }
    else none

def messages : System (State Θ) (Action Θ) where
  init s := s.functors = [] ∧ (∀ t, s.pc t = .idle) ∧ (∀ t, s.issued t = []) ∧
    s.delivered = [] ∧ s.queued = [] ∧ ∃ address sockfd poller wc hw mark,
      (construct address sockfd poller wc hw mark).connectEstablished [] = some s.conn
  next := next loopThread

def Working (s : State Θ) : Action Θ → Prop
  | .sendRun t answer =>
    (content (s.buffers t).1).length < 2 ^ 31 ∧
      Answers (content (s.buffers t).1).length answer
  | .runFunctor answer =>
    ∀ m ∈ s.functors.head?.bind message?, Answers m.length answer
  | .handleWrite answer => Answers s.conn.outputBuffer_.readable.length answer
  | _ => True

/-- The connection is open, its stream is the messages delivered, the queue holds the
messages on their way, all of other threads, and a thread's calls are delivered in order
before they wait in order. -/
structure Inv (s : State Θ) : Prop where
  state : s.conn.state_ = .kConnected
  synced : Synced s.conn
  stream : accepted s.conn.trace ++ s.conn.outputBuffer_.readable =
    (s.delivered.map Prod.snd).flatten
  waiting : s.queued.map Prod.snd = sends s.functors ++ sends s.conn.pendingFunctors_
  order : ∀ t, ofThread s.delivered t ++ ofThread s.queued t = s.issued t
  foreign : ∀ m ∈ s.queued, m.1 ≠ loopThread
  short : ∀ m ∈ s.queued, m.2.length < 2 ^ 31

variable {s s' : State Θ} {loopThread}

theorem order_issue {ms ns : List (Θ × List Byte)} {issued : Θ → List (List Byte)} {t : Θ}
    {message : List Byte} (h : ∀ u, ofThread ms u ++ ofThread ns u = issued u)
    {ms' ns' : List (Θ × List Byte)}
    (self : ofThread ms' t ++ ofThread ns' t = ofThread ms t ++ ofThread ns t ++ [message])
    (other : ∀ u, u ≠ t → ofThread ms' u ++ ofThread ns' u = ofThread ms u ++ ofThread ns u)
    (u : Θ) : ofThread ms' u ++ ofThread ns' u =
      Function.update issued t (issued t ++ [message]) u := by
  by_cases same : u = t
  · subst same
    rw [Function.update_self, self, h]
  · rw [Function.update_of_ne same, other u same, h]

theorem stream_deliver {c c' : TcpConnection} {delivered : List (List Byte)}
    {message : List Byte} {answer : WriteResult} (state : c.state_ = .kConnected)
    (synced : Synced c) (stream : accepted c.trace ++ c.outputBuffer_.readable = delivered.flatten)
    (short : message.length < 2 ^ 31) (answers : Answers message.length answer)
    (hc : c.sendInLoop message answer = some c') :
    c'.state_ = .kConnected ∧ Synced c' ∧
      accepted c'.trace ++ c'.outputBuffer_.readable = (delivered ++ [message]).flatten := by
  have live : c.state_ ≠ .kDisconnected := by simp [state]
  obtain ⟨synced', n, taken, left⟩ :=
    sendInLoop_stream synced live (fits_of_short _ _ short) answers hc
  refine ⟨(sendInLoop_frame hc).state.trans state, synced', ?_⟩
  rw [taken, left, List.append_assoc, List.take_append_drop, ← List.append_assoc, stream,
    List.flatten_append, List.flatten_singleton]

theorem Inv.sendRun {t : Θ} {answer : WriteResult} (h : Inv loopThread s)
    (ha : Working s (.sendRun t answer)) (hn : next loopThread s (.sendRun t answer) = some s') :
    Inv loopThread s' := by
  obtain ⟨short, answers⟩ := ha
  simp only [next] at hn
  split_ifs at hn with at_ inLoop
  · -- the messages of the loop thread never wait
    obtain ⟨c, hc, rfl⟩ := Option.map_eq_some_iff.mp hn
    have frame := sendInLoop_frame hc
    obtain ⟨state, synced, stream⟩ :=
      stream_deliver h.state h.synced h.stream short answers hc
    have none : ofThread s.queued t = [] :=
      ofThread_absent fun m hm => inLoop ▸ h.foreign m hm
    refine ⟨state, synced, ?_, ?_, ?_, h.foreign, h.short⟩
    · simpa only [State.issue, State.goto, List.map_append, List.map_cons, List.map_nil]
        using stream
    · rw [frame_sends frame]
      exact h.waiting
    · refine order_issue h.order ?_ fun u other => ?_
      · simp only [State.issue, State.goto, ofThread_append, ofThread_self, none, List.append_nil]
      · simp only [State.issue, State.goto, ofThread_append, ofThread_other other.symm,
          List.append_nil]
  · obtain rfl := Option.some.inj hn
    refine ⟨h.state, h.synced.of_eq rfl rfl, h.stream, ?_, ?_, ?_, ?_⟩
    · have single : sends [.sendInLoop (content (s.buffers t).1)] =
          [content (s.buffers t).1] := rfl
      simp only [queueInLoop, sends_append, List.map_append, h.waiting, single,
        List.append_assoc]
      rfl
    · refine order_issue h.order ?_ fun u other => ?_
      · simp only [State.issue, State.goto, ofThread_append, ofThread_self, List.append_assoc]
      · simp only [State.issue, State.goto, ofThread_append, ofThread_other other.symm,
          List.append_nil]
    · intro m hm
      rcases List.mem_append.mp hm with old | new
      · exact h.foreign m old
      · rw [List.mem_singleton.mp new]
        exact inLoop
    · intro m hm
      rcases List.mem_append.mp hm with old | new
      · exact h.short m old
      · rw [List.mem_singleton.mp new]
        exact short

theorem Inv.runOther (h : Inv loopThread s) {f : Functor} {rest : List Functor}
    (hf : s.functors = f :: rest) (none : message? f = none) {c : TcpConnection}
    (state : c.state_ = s.conn.state_) (buffer : c.outputBuffer_ = s.conn.outputBuffer_)
    (channel : c.channel_ = s.conn.channel_) (trace : accepted c.trace = accepted s.conn.trace)
    (queue : c.pendingFunctors_ = s.conn.pendingFunctors_) :
    Inv loopThread { s with conn := c, functors := rest } := by
  refine ⟨state.trans h.state, h.synced.of_eq buffer channel, ?_, ?_, h.order, h.foreign,
    h.short⟩
  · rw [trace, buffer]
    exact h.stream
  · have waiting := h.waiting
    rw [hf, sends_cons, none] at waiting
    simpa only [queue, Option.toList_none, List.nil_append] using waiting

theorem Inv.runSend (h : Inv loopThread s) {message : List Byte} {rest : List Functor}
    (hf : s.functors = .sendInLoop message :: rest) {answer : WriteResult}
    (answers : Answers message.length answer) {c : TcpConnection}
    (hc : s.conn.sendInLoop message answer = some c) :
    Inv loopThread { s with
      conn := c
      functors := rest
      delivered := s.delivered ++ s.queued.take 1
      queued := s.queued.drop 1 } := by
  have waiting := h.waiting
  rw [hf, sends_cons] at waiting
  cases hq : s.queued with
  | nil => simp [hq, message?] at waiting
  | cons m ms =>
    simp only [hq, message?, List.map_cons, Option.toList_some, List.cons_append,
      List.cons.injEq] at waiting
    have mine : ∀ n ∈ ms, n ∈ s.queued := fun n hn => hq ▸ List.mem_cons_of_mem m hn
    obtain ⟨state, synced, stream⟩ := stream_deliver h.state h.synced h.stream
      (waiting.1 ▸ h.short m (hq ▸ List.mem_cons_self)) answers hc
    refine ⟨state, synced, ?_, ?_, fun t => ?_, fun n hn => h.foreign n (mine n hn),
      fun n hn => h.short n (mine n hn)⟩
    · rw [List.map_append, List.take_succ_cons, List.take_zero, List.map_singleton, waiting.1]
      exact stream
    · rw [frame_sends (sendInLoop_frame hc)]
      exact waiting.2
    · have order := h.order t
      rw [hq, ← List.singleton_append, ofThread_append, ← List.append_assoc] at order
      simpa only [ofThread_append, List.take_succ_cons, List.take_zero, List.drop_succ_cons,
        List.drop_zero] using order

theorem Inv.runFunctor {answer : WriteResult} (h : Inv loopThread s)
    (ha : Working s (.runFunctor answer)) (hn : next loopThread s (.runFunctor answer) = some s') :
    Inv loopThread s' := by
  simp only [ConnectionMessages.next] at hn
  split_ifs at hn
  split at hn
  case h_1 => cases hn
  case h_2 f rest hf =>
    obtain ⟨c, hc, rfl⟩ := Option.map_eq_some_iff.mp hn
    cases f with
    | sendInLoop message =>
      exact h.runSend hf (ha message (by simp [hf, message?])) hc
    | shutdownInLoop =>
      obtain ⟨buffer, channel, trace, state⟩ := shutdownInLoop_fields s.conn
      have queue : s.conn.shutdownInLoop.pendingFunctors_ = s.conn.pendingFunctors_ := by
        unfold shutdownInLoop
        split_ifs <;> rfl
      cases hc
      have done := h.runOther hf rfl state buffer channel trace queue
      simpa [message?] using done
    | writeCompleteCallback =>
      cases hc
      have done := h.runOther hf rfl rfl rfl rfl rfl rfl
      simpa [message?] using done
    | highWaterMarkCallback size =>
      cases hc
      have done := h.runOther hf rfl rfl rfl rfl rfl rfl
      simpa [message?] using done

theorem Inv.next {a : Action Θ} (h : Inv loopThread s) (ha : Working s a)
    (hn : next loopThread s a = some s') : Inv loopThread s' := by
  cases a with
  | fill t b =>
    obtain ⟨-, rfl⟩ := guard_met hn
    exact ⟨h.state, h.synced, h.stream, h.waiting, h.order, h.foreign, h.short⟩
  | sendCheck t =>
    obtain ⟨-, rfl⟩ := guard_met hn
    split_ifs
    · exact ⟨h.state, h.synced, h.stream, h.waiting, h.order, h.foreign, h.short⟩
    · exact h
  | sendRun t answer => exact h.sendRun ha hn
  | doPendingFunctors =>
    obtain ⟨ready, rfl⟩ := guard_met hn
    have waiting := h.waiting
    rw [ready.2] at waiting
    exact ⟨h.state, h.synced.of_eq rfl rfl, h.stream, by simpa [sends] using waiting, h.order,
      h.foreign, h.short⟩
  | runFunctor answer => exact h.runFunctor ha hn
  | handleWrite answer =>
    obtain ⟨-, rfl⟩ := guard_met hn
    obtain ⟨synced, n, taken, left⟩ := handleWrite_stream h.synced answer
    refine ⟨(handleWrite_state h.synced answer).trans h.state, synced, ?_, ?_, h.order,
      h.foreign, h.short⟩
    · rw [taken, left, List.append_assoc, List.take_append_drop]
      exact h.stream
    · rcases handleWrite_shape h.synced answer with frame | ⟨⟨closing, -⟩, -⟩
      · rw [frame_sends frame]
        exact h.waiting
      · simp [h.state] at closing

theorem initial_inv (h : (messages loopThread).init s) : Inv loopThread s := by
  obtain ⟨batch, -, issued, delivered, queued, address, sockfd, poller, wc, hw, mark, hc⟩ := h
  obtain ⟨out, stream⟩ := established_inv (s := ⟨s.conn, []⟩)
    ⟨rfl, address, sockfd, poller, wc, hw, mark, hc⟩
  simp only [ConnectionOutput.stream, FifoTransfer.Transfer.mk.injEq] at stream
  have shape := Option.some.inj hc
  have state : s.conn.state_ = .kConnected := by
    rw [← shape]
    rfl
  have queue : s.conn.pendingFunctors_ = [] := by
    rw [← shape]
    rfl
  refine ⟨state, out.synced, ?_, ?_, fun t => ?_, by simp [queued], by simp [queued]⟩
  · rw [stream.1, stream.2.1, delivered]
    rfl
  · rw [batch, queue, queued]
    rfl
  · rw [delivered, queued, issued]
    rfl

theorem messages_inv (h : (messages loopThread).Reachable Working s) : Inv loopThread s :=
  h.invariant (P := Inv loopThread) (fun _ => initial_inv) fun _ _ _ hs ha hn => hs.next ha hn

/-- The bytes the kernel took followed by `outputBuffer_` are the messages delivered, whole
and one after the other. The messages of a thread among them are its first ones, in the
order of its calls, and all of them when no functor is pending. -/
theorem messages_whole_in_order (h : (messages loopThread).Reachable Working s) :
    accepted s.conn.trace ++ s.conn.outputBuffer_.readable =
        (s.delivered.map Prod.snd).flatten ∧
      (∀ t, ofThread s.delivered t <+: s.issued t) ∧
      (s.functors = [] → s.conn.pendingFunctors_ = [] →
        ∀ t, ofThread s.delivered t = s.issued t) := by
  have inv := messages_inv h
  refine ⟨inv.stream, fun t => inv.order t ▸ List.prefix_append _ _, fun batch queue t => ?_⟩
  have waiting := inv.waiting
  rw [batch, queue] at waiting
  have none : s.queued = [] := List.map_eq_nil_iff.mp waiting
  rw [← inv.order t, none]
  exact (List.append_nil _).symm

instance (s : State Θ) (a : Action Θ) : Decidable (Working s a) := by
  cases a <;> unfold Working <;> infer_instance

def pair (x : Byte) : { b : Buffer // b.WellFormed } :=
  ⟨⟨[0, 0, 0, 0, 0, 0, 0, 0, x, x], 8, 10⟩,
    ⟨Nat.le_refl 8, Nat.le_add_right 8 2, Nat.le_refl 10, by simp [Buffer.maxSize]⟩⟩

def sample : State Bool where
  conn := ((construct 1 7 EPollPoller.construct false false 64).connectEstablished
    []).getD (construct 1 7 EPollPoller.construct false false 64)
  functors := []
  pc := fun _ => .idle
  buffers := fun _ => pair 5
  issued := fun _ => []
  delivered := []
  queued := []

theorem sample_initial : (messages true).init sample :=
  ⟨rfl, fun _ => rfl, fun _ => rfl, rfl, rfl, 1, 7, _, false, false, 64, rfl⟩

theorem messages_whole_in_order_two :
    ∃ s : State Bool, (messages true).Reachable Working s ∧
      s.delivered = [(true, [7, 7]), (false, [5, 5])] ∧
      accepted s.conn.trace ++ s.conn.outputBuffer_.readable =
        (s.delivered.map Prod.snd).flatten ∧
      ∀ t, ofThread s.delivered t = s.issued t := by
  have run : ((messages true).execute Working sample
      [.sendCheck false, .sendRun false (.wrote 0), .fill true (pair 7), .sendCheck true,
        .sendRun true (.wrote 1), .doPendingFunctors, .runFunctor (.wrote 0),
        .handleWrite (.wrote 3)]).map
      (fun s => (s.delivered, s.functors, s.conn.pendingFunctors_)) =
      some ([(true, [7, 7]), (false, [5, 5])], [], []) := by decide +kernel
  obtain ⟨s, reached, ends⟩ := System.Reachable.of_replay sample_initial run
  simp only [Prod.mk.injEq] at ends
  obtain ⟨stream, -, all⟩ := messages_whole_in_order reached
  exact ⟨s, reached, ends.1, stream, all ends.2.1 ends.2.2⟩

end TinyNetwork.ConnectionMessages

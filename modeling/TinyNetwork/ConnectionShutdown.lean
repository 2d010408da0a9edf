import TinyNetwork.ConnectionOutput
import Mathlib.Data.Fintype.Basic
import Mathlib.Data.List.Induction
import Mathlib.Data.List.Perm.Subperm

/-! `send` and `shutdown` called from any threads against the loop thread of one
connection. A call reads `state_`, and then, in later steps, runs its work inline
in the loop thread or queues it; the loop thread swaps the queue out, runs the
batch, and handles writable events between batches. User code inside a callback
is a sequence of calls of the loop thread. The strings that cross threads keep
their content. -/
namespace TinyNetwork.ConnectionShutdown
open Transition MachineWord TcpConnection EPollPoller ConnectionOutput

section Wire

/-- Every half-close in the trace comes when the kernel has accepted `content`, and no
write follows it. -/
def Sealed (trace : List Event) (content : List Byte) : Prop :=
  ∀ pre post, trace = pre ++ .shutdownWrite :: post →
    accepted pre = content ∧ ∀ e ∈ post, isWrite e = false

theorem Sealed.of_absent {trace : List Event} {content : List Byte}
    (h : .shutdownWrite ∉ trace) : Sealed trace content := by
  rintro pre post rfl
  exact absurd (List.mem_append_right _ List.mem_cons_self) h

theorem Sealed.halfClose {trace : List Event} {content : List Byte} (h : Sealed trace content)
    (all : accepted trace = content) : Sealed (trace ++ [.shutdownWrite]) content := by
  intro pre post split
  induction post using List.reverseRecOn with
  | nil =>
    obtain ⟨rfl, -⟩ := List.append_inj' split rfl
    exact ⟨all, by simp⟩
  | append_singleton post e _ =>
    rw [← List.cons_append, ← List.append_assoc] at split
    obtain ⟨before, last⟩ := List.append_inj' split rfl
    obtain ⟨whole, quiet⟩ := h pre post before
    refine ⟨whole, fun x hx => ?_⟩
    rcases List.mem_append.mp hx with old | new
    · exact quiet x old
    · rw [← last, List.mem_singleton] at new
      rw [new]
      rfl

/-- The wire of an open connection: what the kernel took followed by what waits is what
was handed to `sendInLoop`, and once the write side is closed nothing waits. -/
structure Wire (c : TcpConnection) (handed : List (List Byte)) : Prop where
  live : c.state_ ≠ .kDisconnected
  synced : Synced c
  stream : accepted c.trace ++ c.outputBuffer_.readable = handed.flatten
  finished : .shutdownWrite ∈ c.trace → c.channel_.isWriting = false
  isSealed : Sealed c.trace handed.flatten

variable {c c' : TcpConnection} {handed : List (List Byte)}

theorem Wire.idle (h : Wire c handed) (quiet : c.channel_.isWriting = false) :
    accepted c.trace = handed.flatten := by
  have empty : c.outputBuffer_.readable = [] := by
    by_contra waiting
    simp [h.synced.interest.mpr waiting] at quiet
  rw [← h.stream, empty, List.append_nil]

theorem frame_absent (f : Frame c c') (h : .shutdownWrite ∉ c.trace) :
    .shutdownWrite ∉ c'.trace := by
  obtain ⟨events, ht, writes⟩ := f.writes
  rw [ht, List.mem_append, not_or]
  exact ⟨h, fun mem => by simpa [isWrite] using writes _ mem⟩

theorem Wire.of_frame (h : Wire c handed) {handed' : List (List Byte)} (f : Frame c c')
    (absent : .shutdownWrite ∉ c.trace) (synced : Synced c')
    (stream : accepted c'.trace ++ c'.outputBuffer_.readable = handed'.flatten) :
    Wire c' handed' :=
  have absent' := frame_absent f absent
  ⟨f.state ▸ h.live, synced, stream, fun mem => absurd mem absent', Sealed.of_absent absent'⟩

theorem Wire.sendInLoop (h : Wire c handed) (absent : .shutdownWrite ∉ c.trace)
    {message : List Byte} {answer : WriteResult} (fits : Fits c message answer)
    (answers : Answers message.length answer) (hc : c.sendInLoop message answer = some c') :
    Wire c' (handed ++ [message]) := by
  obtain ⟨synced, n, htaken, hleft⟩ := sendInLoop_stream h.synced h.live fits answers hc
  refine h.of_frame (sendInLoop_frame hc) absent synced ?_
  rw [htaken, hleft, List.append_assoc, List.take_append_drop, ← List.append_assoc, h.stream]
  simp

theorem Wire.shutdownInLoop (h : Wire c handed) : Wire c.shutdownInLoop handed := by
  unfold TcpConnection.shutdownInLoop
  split_ifs with writing
  · exact h
  · have quiet : c.channel_.isWriting = false := by simpa using writing
    refine ⟨h.live, h.synced.of_eq rfl rfl, ?_, fun _ => quiet,
      h.isSealed.halfClose (h.idle quiet)⟩
    rw [record, accepted_append, ← h.stream]
    simp [accepted, eventBytes]

theorem Wire.queueInLoop (h : Wire c handed) (f : Functor) : Wire (c.queueInLoop f) handed :=
  ⟨h.live, h.synced.of_eq rfl rfl, h.stream, h.finished, h.isSealed⟩

theorem Wire.setState (h : Wire c handed) : Wire (c.setState .kDisconnecting) handed :=
  ⟨by simp [TcpConnection.setState], h.synced.of_eq rfl rfl, h.stream, h.finished, h.isSealed⟩

/-- A `handleWrite` only moves bytes, unless it empties the buffer of a connection in
shutdown: then the deferred half-close follows. -/
theorem handleWrite_shape (h : Synced c) (answer : WriteResult) :
    Frame c (c.handleWrite answer) ∨
      (c.state_ = .kDisconnecting ∧ Drains c answer) ∧ ∃ d, Frame c d ∧
        d.channel_.isWriting = false ∧ c.handleWrite answer = d.record .shutdownWrite := by
  by_cases hd : Drains c answer
  · obtain ⟨writing, n, rfl, hpos, hall⟩ := hd
    have drains : Drains c (.wrote n) := ⟨writing, n, rfl, hpos, hall⟩
    rw [handleWrite_drains h drains]
    split_ifs with disconnecting
    · exact .inr ⟨⟨disconnecting, drains⟩, _, drained_frame c n, (drained_fields c n).2.1, rfl⟩
    · exact .inl (drained_frame c n)
  · left
    rcases handleWrite_partial h hd with same | ⟨-, written⟩ | ⟨n, -, -, partly⟩
    · rw [same]
      exact Frame.refl c
    · exact written ▸ frame_write c _ _
    · exact partly ▸ moved_frame c n

theorem Wire.handleWrite (h : Wire c handed) (answer : WriteResult) :
    Wire (c.handleWrite answer) handed := by
  by_cases writing : c.channel_.isWriting = true
  · have absent : .shutdownWrite ∉ c.trace := fun mem => by simp [h.finished mem] at writing
    obtain ⟨synced, n, htaken, hleft⟩ := handleWrite_stream h.synced answer
    have stream : accepted (c.handleWrite answer).trace ++
        (c.handleWrite answer).outputBuffer_.readable = handed.flatten := by
      rw [htaken, hleft, List.append_assoc, List.take_append_drop, h.stream]
    rcases handleWrite_shape h.synced answer with frame | ⟨-, d, frame, quiet, shape⟩
    · exact h.of_frame frame absent synced stream
    · rw [shape] at synced stream ⊢
      have drained : Wire d handed := by
        refine h.of_frame frame absent (synced.of_eq rfl rfl) ?_
        simpa [record, accepted, eventBytes] using stream
      have half := drained.shutdownInLoop
      rwa [TcpConnection.shutdownInLoop, quiet] at half
  · have same : c.handleWrite answer = c := by
      unfold TcpConnection.handleWrite
      rw [if_neg writing]
    rw [same]
    exact h

end Wire

section Threads
variable {Θ : Type*}

inductive Pc where
  | idle
  | sendChecked (message : List Byte)
  | shutdownCalled
  | shutdownChecked
  | shutdownSet
  deriving DecidableEq

def isSending : Pc → Bool
  | .sendChecked _ => true
  | _ => false

def message? : Functor → Option (List Byte)
  | .sendInLoop message => some message
  | _ => none

def sends (functors : List Functor) : List (List Byte) := functors.filterMap message?

theorem sends_append (fs gs : List Functor) : sends (fs ++ gs) = sends fs ++ sends gs :=
  List.filterMap_append

theorem sends_cons (f : Functor) (fs : List Functor) :
    sends (f :: fs) = (message? f).toList ++ sends fs := by
  cases f <;> rfl

/-- `functors` is the batch `doPendingFunctors` is running. `before` holds the messages
of the sends that returned, having seen `kConnected`, before `shutdown` was called,
and `handed` the messages that reached `sendInLoop`. -/
structure State (Θ : Type*) where
  conn : TcpConnection
  functors : List Functor
  pc : Θ → Pc
  called : Bool
  before : List (List Byte)
  handed : List (List Byte)

structure NoSends (s : State Θ) : Prop where
  batch : sends s.functors = []
  queue : sends s.conn.pendingFunctors_ = []
  threads : ∀ t, isSending (s.pc t) = false

def Closing (s : State Θ) : Prop :=
  (∃ t, s.pc t = .shutdownSet) ∨
    .shutdownInLoop ∈ s.functors ++ s.conn.pendingFunctors_ ∨ .shutdownWrite ∈ s.conn.trace

structure Inv (s : State Θ) : Prop where
  wire : Wire s.conn s.handed
  kept : ∀ m, s.before.count m ≤ s.handed.count m + (sends s.functors).count m +
    (sends s.conn.pendingFunctors_).count m
  closing : Closing s → s.conn.state_ = .kDisconnecting
  settled : .shutdownWrite ∈ s.conn.trace → NoSends s

section Frames
variable {c c' : TcpConnection} (f : Frame c c')
include f

theorem frame_sends : sends c'.pendingFunctors_ = sends c.pendingFunctors_ := by
  obtain ⟨functors, hp, notes⟩ := f.queued
  have none : sends functors = [] := by
    rw [sends, List.filterMap_eq_nil_iff]
    intro g hg
    have note := notes g hg
    cases g <;> simp_all [isNotification, message?]
  rw [hp, sends_append, none, List.append_nil]

theorem frame_shutdown (h : .shutdownInLoop ∈ c'.pendingFunctors_) :
    .shutdownInLoop ∈ c.pendingFunctors_ := by
  obtain ⟨functors, hp, notes⟩ := f.queued
  rw [hp, List.mem_append] at h
  exact h.resolve_right fun mem => by simpa [isNotification] using notes _ mem

theorem frame_written (h : .shutdownWrite ∈ c'.trace) : .shutdownWrite ∈ c.trace := by
  by_contra absent
  exact frame_absent f absent h

end Frames

section Connection
variable {s : State Θ}

theorem NoSends.of_conn (h : NoSends s) {c : TcpConnection}
    (queue : sends c.pendingFunctors_ = sends s.conn.pendingFunctors_) :
    NoSends { s with conn := c } :=
  ⟨h.batch, queue.trans h.queue, h.threads⟩

theorem Inv.conn (h : Inv s) {c : TcpConnection} (wire : Wire c s.handed)
    (state : s.conn.state_ = .kDisconnecting → c.state_ = .kDisconnecting)
    (queue : sends c.pendingFunctors_ = sends s.conn.pendingFunctors_)
    (queued : .shutdownInLoop ∈ c.pendingFunctors_ → s.conn.state_ = .kDisconnecting)
    (written : .shutdownWrite ∈ c.trace → s.conn.state_ = .kDisconnecting ∧ NoSends s) :
    Inv { s with conn := c } := by
  refine ⟨wire, fun m => queue ▸ h.kept m, ?_, fun mem => (written mem).2.of_conn queue⟩
  rintro (thread | functor | trace)
  · exact state (h.closing (.inl thread))
  · rcases List.mem_append.mp functor with batch | later
    · exact state (h.closing (.inr (.inl (List.mem_append_left _ batch))))
    · exact state (queued later)
  · exact state (written trace).1

theorem Inv.queued (h : Inv s) (mem : .shutdownInLoop ∈ s.conn.pendingFunctors_) :
    s.conn.state_ = .kDisconnecting :=
  h.closing (.inr (.inl (List.mem_append_right _ mem)))

theorem Inv.written (h : Inv s) (mem : .shutdownWrite ∈ s.conn.trace) :
    s.conn.state_ = .kDisconnecting ∧ NoSends s :=
  ⟨h.closing (.inr (.inr mem)), h.settled mem⟩

theorem Inv.setState (h : Inv s) : Inv { s with conn := s.conn.setState .kDisconnecting } :=
  h.conn h.wire.setState (fun _ => rfl) rfl h.queued h.written

theorem Inv.queueShutdown (h : Inv s) (closing : s.conn.state_ = .kDisconnecting) :
    Inv { s with conn := s.conn.queueInLoop .shutdownInLoop } := by
  refine h.conn (h.wire.queueInLoop _) id ?_ (fun _ => closing) h.written
  rw [queueInLoop, sends_append]
  exact List.append_nil _

theorem Inv.shutdownInLoop (h : Inv s) (closing : s.conn.state_ = .kDisconnecting)
    (none : s.conn.channel_.isWriting = false → NoSends s) :
    Inv { s with conn := s.conn.shutdownInLoop } := by
  have wire := h.wire.shutdownInLoop
  unfold TcpConnection.shutdownInLoop at wire ⊢
  split_ifs at wire ⊢ with writing
  · exact h
  · exact h.conn wire id rfl h.queued fun _ => ⟨closing, none (by simpa using writing)⟩

theorem Inv.handleWrite (h : Inv s) (answer : WriteResult)
    (none : s.conn.state_ = .kDisconnecting ∧ Drains s.conn answer → NoSends s) :
    Inv { s with conn := s.conn.handleWrite answer } := by
  have wire := h.wire.handleWrite answer
  rcases handleWrite_shape h.wire.synced answer with frame | ⟨drains, d, frame, -, shape⟩
  · exact h.conn wire (fun state => frame.state.trans state) (frame_sends frame)
      (fun mem => h.queued (frame_shutdown frame mem))
      (fun mem => h.written (frame_written frame mem))
  · rw [shape] at wire ⊢
    have queue := frame_sends frame
    have queued := fun mem => h.queued (frame_shutdown frame mem)
    exact h.conn wire (fun state => frame.state.trans state) queue queued
      fun _ => ⟨drains.1, none drains⟩

theorem Inv.open_of_sending (h : Inv s) {u : Θ} (sending : isSending (s.pc u) = true) :
    .shutdownWrite ∉ s.conn.trace := fun mem => by
  simp [(h.settled mem).threads u] at sending

theorem Inv.pop (h : Inv s) {f : Functor} {rest : List Functor} (hf : s.functors = f :: rest)
    (hm : message? f = none) : Inv { s with functors := rest } := by
  have same : sends s.functors = sends rest := by
    rw [hf, sends_cons, hm]
    rfl
  refine ⟨h.wire, fun m => same ▸ h.kept m, fun closing => h.closing ?_, fun mem => ?_⟩
  · rcases closing with thread | functor | trace
    · exact .inl thread
    · exact .inr (.inl (by rw [hf]; exact List.mem_cons_of_mem _ functor))
    · exact .inr (.inr trace)
  · have none := h.settled mem
    exact ⟨same ▸ none.batch, none.queue, none.threads⟩

theorem Inv.hand (h : Inv s) (absent : .shutdownWrite ∉ s.conn.trace) {message : List Byte}
    {answer : WriteResult} (fits : Fits s.conn message answer)
    (answers : Answers message.length answer) {c : TcpConnection}
    (hc : s.conn.sendInLoop message answer = some c) {rest : List Functor}
    (sub : ∀ f ∈ rest, f ∈ s.functors) {before : List (List Byte)}
    (account : ∀ m, before.count m + (sends s.functors).count m ≤
      s.before.count m + [message].count m + (sends rest).count m) :
    Inv { s with
      conn := c, functors := rest, before := before, handed := s.handed ++ [message] } := by
  have frame := sendInLoop_frame hc
  refine ⟨h.wire.sendInLoop absent fits answers hc, fun m => ?_, fun closing => ?_,
    fun mem => absurd (frame_written frame mem) absent⟩
  · have kept := h.kept m
    have moved := account m
    simp only [frame_sends frame, List.count_append]
    omega
  · refine frame.state.trans (h.closing ?_)
    rcases closing with thread | functor | trace
    · exact .inl thread
    · right; left
      rcases List.mem_append.mp functor with batch | later
      · exact List.mem_append_left _ (sub _ batch)
      · exact List.mem_append_right _ (frame_shutdown frame later)
    · exact absurd (frame_written frame trace) absent

end Connection

section Run
variable [DecidableEq Θ] (loopThread : Θ)

def State.goto (s : State Θ) (t : Θ) (p : Pc) : State Θ :=
  { s with pc := Function.update s.pc t p }

@[simp] theorem goto_pc (s : State Θ) (u : Θ) (p : Pc) : (s.goto u p).pc u = p :=
  Function.update_self ..

inductive Action (Θ : Type*) where
  | sendCheck (t : Θ) (message : List Byte)
  | sendRun (t : Θ) (answer : WriteResult)
  | shutdownCall (t : Θ)
  | shutdownCheck (t : Θ)
  | shutdownSet (t : Θ)
  | shutdownRun (t : Θ)
  | doPendingFunctors
  | runFunctor (answer : WriteResult)
  | handleWrite (answer : WriteResult)

def State.returned (s : State Θ) (message : List Byte) : List (List Byte) :=
  if s.called then s.before else s.before ++ [message]

omit [DecidableEq Θ] in
theorem returned_count (s : State Θ) (message m : List Byte) :
    (s.returned message).count m ≤ s.before.count m + [message].count m := by
  unfold State.returned
  split_ifs
  · exact Nat.le_add_right _ _
  · exact List.count_append.le

/-- `sendRun` and `shutdownRun` are the `runInLoop` of the two calls. Notifications run
user code, whose calls are steps of their own. -/
def next (s : State Θ) : Action Θ → Option (State Θ)
  | .sendCheck t message =>
    if s.pc t = .idle then
      some (if s.conn.state_ = .kConnected then s.goto t (.sendChecked message) else s)
    else none
  | .sendRun t answer =>
    match s.pc t with
    | .sendChecked message =>
      let s := { s.goto t .idle with before := s.returned message }
      if t = loopThread then
        (s.conn.sendInLoop message answer).map fun c =>
          { s with conn := c, handed := s.handed ++ [message] }
      else some { s with conn := s.conn.queueInLoop (.sendInLoop message) }
    | _ => none
  | .shutdownCall t =>
    if s.pc t = .idle ∧ s.called = false then
      some { s.goto t .shutdownCalled with called := true }
    else none
  | .shutdownCheck t =>
    if s.pc t = .shutdownCalled then
      some (s.goto t (if s.conn.state_ = .kConnected then .shutdownChecked else .idle))
    else none
  | .shutdownSet t =>
    if s.pc t = .shutdownChecked then
      some { s.goto t .shutdownSet with conn := s.conn.setState .kDisconnecting }
    else none
  | .shutdownRun t =>
    if s.pc t = .shutdownSet then
      some { s.goto t .idle with
        conn := if t = loopThread then s.conn.shutdownInLoop
          else s.conn.queueInLoop .shutdownInLoop }
    else none
  | .doPendingFunctors =>
    if s.pc loopThread = .idle ∧ s.functors = [] then
      some { s with
        functors := s.conn.pendingFunctors_
        conn := { s.conn with pendingFunctors_ := [] } }
    else none
  | .runFunctor answer =>
    if s.pc loopThread = .idle then
      match s.functors with
      | [] => none
      | f :: rest =>
        (s.conn.runFunctor answer [] f).map fun c =>
          { s with conn := c, functors := rest, handed := s.handed ++ (message? f).toList }
    else none
  | .handleWrite answer =>
    if s.pc loopThread = .idle ∧ s.functors = [] then
      some { s with conn := s.conn.handleWrite answer }
    else none

def calls : System (State Θ) (Action Θ) where
  init s := s.functors = [] ∧ (∀ t, s.pc t = .idle) ∧ s.called = false ∧ s.before = [] ∧
    s.handed = [] ∧ ∃ address sockfd poller wc hw mark,
      (construct address sockfd poller wc hw mark).connectEstablished [] = some s.conn
  next := next loopThread

def handing (s : State Θ) : Action Θ → Option (List Byte × WriteResult)
  | .sendRun t answer =>
    match s.pc t with
    | .sendChecked message => if t = loopThread then some (message, answer) else none
    | _ => none
  | .runFunctor answer => (s.functors.head?.bind message?).map fun message => (message, answer)
  | _ => none

def Working (s : State Θ) (a : Action Θ) : Prop :=
  ∀ p ∈ handing loopThread s a, Fits s.conn p.1 p.2 ∧ Answers p.1.length p.2

def HalfCloses (s : State Θ) : Action Θ → Prop
  | .shutdownRun t => t = loopThread ∧ s.conn.channel_.isWriting = false
  | .runFunctor _ =>
    s.functors.head? = some .shutdownInLoop ∧ s.conn.channel_.isWriting = false
  | .handleWrite answer => s.conn.state_ = .kDisconnecting ∧ Drains s.conn answer
  | _ => False

/-- The write side is closed only when no message is on its way. -/
def Ordered (s : State Θ) (a : Action Θ) : Prop :=
  Working loopThread s a ∧ (HalfCloses loopThread s a → NoSends s)

variable {s t : State Θ} {loopThread}

theorem next_path {a : Action Θ} (hn : next loopThread s a = some t) :
    (calls loopThread).Path Any s t :=
  System.Path.single trivial hn

/-- Uninterrupted, the steps of a call of `send` are `TcpConnection.send`. -/
theorem send_steps {u : Θ} (idle : s.pc u = .idle) {message : List Byte} {answer : WriteResult}
    {c : TcpConnection} (hc : s.conn.send (decide (u = loopThread)) message answer = some c) :
    ∃ t, (calls loopThread).Path Any s t ∧ t.conn = c ∧ t.pc u = .idle := by
  unfold send at hc
  by_cases connected : s.conn.state_ = .kConnected
  · rw [if_pos connected] at hc
    have checked : next loopThread s (.sendCheck u message) =
        some (s.goto u (.sendChecked message)) := by
      rw [next, if_pos idle, if_pos connected]
    obtain ⟨t, ran, conn, back⟩ : ∃ t,
        next loopThread (s.goto u (.sendChecked message)) (.sendRun u answer) = some t ∧
        t.conn = c ∧ t.pc u = .idle := by
      simp only [next, goto_pc]
      by_cases own : u = loopThread
      · rw [decide_eq_true own, if_pos rfl] at hc
        rw [if_pos own]
        exact ⟨_, congrArg (Option.map _) hc, rfl, goto_pc _ u _⟩
      · rw [decide_eq_false own, if_neg Bool.false_ne_true] at hc
        rw [if_neg own]
        exact ⟨_, rfl, Option.some.inj hc, goto_pc _ u _⟩
    exact ⟨t, (next_path checked).trans (next_path ran), conn, back⟩
  · rw [if_neg connected] at hc
    exact ⟨s, System.Path.refl s, Option.some.inj hc, idle⟩

/-- Uninterrupted, the steps of the call of `shutdown` are `TcpConnection.shutdown`. -/
theorem shutdown_steps {u : Θ} (idle : s.pc u = .idle) (first : s.called = false) :
    ∃ t, (calls loopThread).Path Any s t ∧
      t.conn = s.conn.shutdown (decide (u = loopThread)) ∧ t.pc u = .idle := by
  obtain ⟨m, called, conn, at_⟩ : ∃ m, next loopThread s (.shutdownCall u) = some m ∧
      m.conn = s.conn ∧ m.pc u = .shutdownCalled :=
    ⟨_, if_pos ⟨idle, first⟩, rfl, goto_pc s u _⟩
  rw [← conn]
  unfold TcpConnection.shutdown
  by_cases connected : m.conn.state_ = .kConnected
  · rw [if_pos connected]
    have checked : next loopThread m (.shutdownCheck u) = some (m.goto u .shutdownChecked) := by
      rw [next, if_pos at_, if_pos connected]
    obtain ⟨n, set, state, there⟩ : ∃ n,
        next loopThread (m.goto u .shutdownChecked) (.shutdownSet u) = some n ∧
        n.conn = m.conn.setState .kDisconnecting ∧ n.pc u = .shutdownSet :=
      ⟨_, if_pos (goto_pc m u _), rfl, goto_pc _ u _⟩
    have before := ((next_path called).trans (next_path checked)).trans (next_path set)
    refine ⟨_, before.trans (next_path (a := .shutdownRun u) (if_pos there)), ?_, goto_pc n u _⟩
    simp [state]
  · rw [if_neg connected]
    have checked : next loopThread m (.shutdownCheck u) = some (m.goto u .idle) := by
      rw [next, if_pos at_, if_neg connected]
    exact ⟨_, (next_path called).trans (next_path checked), rfl, goto_pc m u _⟩

theorem Inv.goto (h : Inv s) {u : Θ} {p : Pc}
    (sending : isSending p = true → s.conn.state_ = .kConnected)
    (set : p = .shutdownSet → s.conn.state_ = .kDisconnecting) : Inv (s.goto u p) := by
  refine ⟨h.wire, h.kept, ?_, fun written => ?_⟩
  · rintro (⟨v, hv⟩ | later)
    · by_cases same : v = u
      · subst same
        exact set (by simpa [State.goto] using hv)
      · exact h.closing (.inl ⟨v, by simpa [State.goto, same] using hv⟩)
    · exact h.closing (.inr later)
  · obtain ⟨state, none⟩ := h.written written
    refine ⟨none.batch, none.queue, fun v => ?_⟩
    by_cases same : v = u
    · subst same
      have quiet : isSending p ≠ true := fun sent => by simp [sending sent] at state
      simpa [State.goto] using quiet
    · simpa [State.goto, same] using none.threads v

theorem Inv.idle (h : Inv s) (u : Θ) : Inv (s.goto u .idle) :=
  h.goto (fun sent => by simp [isSending] at sent) (fun set => by simp at set)

theorem Inv.sendRun (h : Inv s) {u : Θ} {answer : WriteResult}
    (ha : Working loopThread s (.sendRun u answer))
    (hn : next loopThread s (.sendRun u answer) = some t) : Inv t := by
  simp only [next] at hn
  split at hn
  case h_2 => cases hn
  case h_1 message pc =>
    have absent := h.open_of_sending (u := u) (by rw [pc]; rfl)
    have idle := h.idle u
    have noted := fun m => returned_count s message m
    by_cases inLoop : u = loopThread
    · rw [if_pos inLoop] at hn
      obtain ⟨c, hc, rfl⟩ := Option.map_eq_some_iff.mp hn
      obtain ⟨fits, answers⟩ := ha (message, answer) (by simp [handing, pc, ← inLoop])
      exact idle.hand absent fits answers hc (fun _ => id) fun m =>
        Nat.add_le_add_right (noted m) _
    · rw [if_neg inLoop] at hn
      obtain rfl := Option.some.inj hn
      refine ⟨idle.wire.queueInLoop _, fun m => ?_, fun closing => idle.closing ?_,
        fun mem => absurd mem absent⟩
      · have kept := idle.kept m
        have more := noted m
        have single : sends [.sendInLoop message] = [message] := rfl
        simp only [State.goto, queueInLoop, sends_append, single, List.count_append] at kept ⊢
        omega
      · simpa [Closing, queueInLoop] using closing

theorem Inv.shutdownRun (h : Inv s) {u : Θ} (ha : Ordered loopThread s (.shutdownRun u))
    (hn : next loopThread s (.shutdownRun u) = some t) : Inv t := by
  obtain ⟨pc, rfl⟩ := guard_met hn
  have closing := h.closing (.inl ⟨u, pc⟩)
  split_ifs with inLoop
  · have done := h.shutdownInLoop closing fun quiet => ha.2 ⟨inLoop, quiet⟩
    exact done.idle u
  · exact (h.queueShutdown closing).idle u

theorem Inv.doPendingFunctors (h : Inv s)
    (hn : next loopThread s .doPendingFunctors = some t) : Inv t := by
  obtain ⟨ready, rfl⟩ := guard_met hn
  have empty : sends s.functors = [] := by
    rw [ready.2]
    rfl
  refine ⟨⟨h.wire.live, h.wire.synced.of_eq rfl rfl, h.wire.stream, h.wire.finished,
    h.wire.isSealed⟩, fun m => ?_, fun closing => h.closing ?_, fun mem => ?_⟩
  · have kept := h.kept m
    rw [empty] at kept
    simpa [sends] using kept
  · simpa [Closing, ready.2] using closing
  · have none := h.settled mem
    exact ⟨none.queue, rfl, none.threads⟩

theorem Inv.runFunctor (h : Inv s) {answer : WriteResult}
    (ha : Ordered loopThread s (.runFunctor answer))
    (hn : next loopThread s (.runFunctor answer) = some t) : Inv t := by
  simp only [next] at hn
  split_ifs at hn
  split at hn
  case h_1 => cases hn
  case h_2 f rest hf =>
    obtain ⟨c, hc, rfl⟩ := Option.map_eq_some_iff.mp hn
    have nothing : message? f = none → s.handed ++ (message? f).toList = s.handed := by
      intro hm
      rw [hm, Option.toList_none, List.append_nil]
    cases f with
    | sendInLoop message =>
      have first : sends s.functors = message :: sends rest := by
        rw [hf]
        rfl
      have absent : .shutdownWrite ∉ s.conn.trace := fun mem => by
        simp [(h.settled mem).batch] at first
      obtain ⟨fits, answers⟩ : Fits s.conn message answer ∧ Answers message.length answer :=
        ha.1 (message, answer) (by simp [handing, hf, message?])
      refine h.hand absent fits answers hc (fun f hmem => ?_) fun m => ?_
      · rw [hf]
        exact List.mem_cons_of_mem _ hmem
      · rw [first, List.count_cons, List.count_singleton]
        omega
    | shutdownInLoop =>
      have popped := h.pop hf rfl
      have closing := h.closing (.inr (.inl (by simp [hf])))
      have same : sends s.functors = sends rest := by
        rw [hf]
        rfl
      have done := popped.shutdownInLoop closing fun quiet =>
        have none := ha.2 ⟨by rw [hf]; rfl, quiet⟩
        ⟨same ▸ none.batch, none.queue, none.threads⟩
      rw [← Option.some.inj hc, nothing rfl]
      exact done
    | writeCompleteCallback =>
      rw [← Option.some.inj hc, nothing rfl]
      exact h.pop hf rfl
    | highWaterMarkCallback size =>
      rw [← Option.some.inj hc, nothing rfl]
      exact h.pop hf rfl

theorem Inv.next (h : Inv s) {a : Action Θ} (ha : Ordered loopThread s a)
    (hn : next loopThread s a = some t) : Inv t := by
  cases a with
  | sendCheck u message =>
    obtain ⟨-, rfl⟩ := guard_met hn
    split_ifs with connected
    · exact h.goto (fun _ => connected) (fun set => by simp at set)
    · exact h
  | sendRun u answer => exact h.sendRun ha.1 hn
  | shutdownCall u =>
    obtain ⟨-, rfl⟩ := guard_met hn
    have moved : Inv (s.goto u .shutdownCalled) :=
      h.goto (fun sent => by simp [isSending] at sent) (fun set => by simp at set)
    exact ⟨moved.wire, moved.kept, moved.closing, fun mem =>
      ⟨(moved.settled mem).batch, (moved.settled mem).queue, (moved.settled mem).threads⟩⟩
  | shutdownCheck u =>
    obtain ⟨-, rfl⟩ := guard_met hn
    split_ifs
    · exact h.goto (fun sent => by simp [isSending] at sent) (fun set => by simp at set)
    · exact h.idle u
  | shutdownSet u =>
    obtain ⟨-, rfl⟩ := guard_met hn
    exact h.setState.goto (fun sent => by simp [isSending] at sent) (fun _ => rfl)
  | shutdownRun u => exact h.shutdownRun ha hn
  | doPendingFunctors => exact h.doPendingFunctors hn
  | runFunctor answer => exact h.runFunctor ha hn
  | handleWrite answer =>
    obtain ⟨-, rfl⟩ := guard_met hn
    exact h.handleWrite answer ha.2

theorem initial_inv (h : (calls loopThread).init s) : Inv s := by
  obtain ⟨batch, idle, -, before, handed, address, sockfd, poller, wc, hw, mark, hc⟩ := h
  obtain ⟨out, stream⟩ := established_inv (s := ⟨s.conn, []⟩)
    ⟨rfl, address, sockfd, poller, wc, hw, mark, hc⟩
  simp only [ConnectionOutput.stream, FifoTransfer.Transfer.mk.injEq] at stream
  have shape := Option.some.inj hc
  have absent : .shutdownWrite ∉ s.conn.trace := by
    rw [← shape]
    simp [record, setChannel, TcpConnection.setState, construct]
  have queue : s.conn.pendingFunctors_ = [] := by
    rw [← shape]
    rfl
  refine ⟨⟨out.live, out.synced, ?_, fun mem => absurd mem absent, Sealed.of_absent absent⟩,
    fun m => ?_, ?_, fun mem => absurd mem absent⟩
  · rw [stream.1, stream.2.1, handed]
    rfl
  · rw [before]
    exact Nat.zero_le _
  · rintro (⟨u, pc⟩ | functor | trace)
    · simp [idle u] at pc
    · simp [batch, queue] at functor
    · exact absurd trace absent

theorem calls_inv (h : (calls loopThread).Reachable (Ordered loopThread) s) : Inv s :=
  h.invariant (fun _ => initial_inv) fun _ _ _ hs => hs.next

/-- In runs that close the write side only when no message is on its way: at each
`shutdownWrite` the kernel has accepted every message handed to `sendInLoop`, those
of the sends that returned before `shutdown` was called among them, and no write
comes after it. -/
theorem shutdown_graceful (h : (calls loopThread).Reachable (Ordered loopThread) s)
    {pre post : List Event} (cut : s.conn.trace = pre ++ .shutdownWrite :: post) :
    s.before.Subperm s.handed ∧ accepted pre = s.handed.flatten ∧
      ∀ e ∈ post, isWrite e = false := by
  have inv := calls_inv h
  obtain ⟨all, quiet⟩ := inv.wire.isSealed pre post cut
  refine ⟨List.subperm_ext_iff.mpr fun m _ => ?_, all, quiet⟩
  have none := inv.settled (by simp [cut])
  have kept := inv.kept m
  rw [none.batch, none.queue] at kept
  simpa using kept

instance (c : TcpConnection) (answer : WriteResult) : Decidable (Drains c answer) :=
  match answer with
  | .wrote n =>
    decidable_of_iff
      (c.channel_.isWriting = true ∧ 0 < n ∧ c.outputBuffer_.readable.length ≤ n)
      ⟨fun ⟨writing, hpos, hall⟩ => ⟨writing, n, rfl, hpos, hall⟩,
        fun ⟨writing, _, same, hpos, hall⟩ => by cases same; exact ⟨writing, hpos, hall⟩⟩
  | .failed _ => isFalse fun ⟨_, _, same, _⟩ => by cases same

omit [DecidableEq Θ] in
instance [Fintype Θ] (s : State Θ) : Decidable (NoSends s) :=
  decidable_of_iff (sends s.functors = [] ∧ sends s.conn.pendingFunctors_ = [] ∧
      ∀ t, isSending (s.pc t) = false)
    ⟨fun ⟨batch, queue, threads⟩ => ⟨batch, queue, threads⟩,
      fun none => ⟨none.batch, none.queue, none.threads⟩⟩

instance (s : State Θ) (a : Action Θ) : Decidable (Working loopThread s a) := by
  unfold Working
  infer_instance

instance (s : State Θ) (a : Action Θ) : Decidable (HalfCloses loopThread s a) := by
  cases a <;> unfold HalfCloses <;> infer_instance

instance [Fintype Θ] (s : State Θ) (a : Action Θ) : Decidable (Ordered loopThread s a) := by
  unfold Ordered
  infer_instance

def sample : State Bool where
  conn := ((construct 1 7 EPollPoller.construct false false 64).connectEstablished
    []).getD (construct 1 7 EPollPoller.construct false false 64)
  functors := []
  pc := fun _ => .idle
  called := false
  before := []
  handed := []

theorem sample_initial : (calls true).init sample :=
  ⟨rfl, fun _ => rfl, rfl, rfl, rfl, 1, 7, _, false, false, 64, rfl⟩

def sendCalls (t : Bool) (message : List Byte) (n : ℕ) : List (Action Bool) :=
  [.sendCheck t message, .sendRun t (.wrote n)]

def shutdownCalls (t : Bool) : List (Action Bool) :=
  [.shutdownCall t, .shutdownCheck t, .shutdownSet t, .shutdownRun t]

theorem shutdown_graceful_deferred :
    ∃ s : State Bool, (calls true).Reachable (Ordered true) s ∧ s.before = [[1, 2]] ∧
      s.before.Subperm s.handed ∧
      accepted [.connection true, .write [1], .write [2]] = s.handed.flatten ∧
      ∀ e ∈ ([] : List Event), isWrite e = false := by
  have run : ((calls true).execute (Ordered true) sample
      (sendCalls false [1, 2] 0 ++ [.doPendingFunctors, .runFunctor (.wrote 1)] ++
        shutdownCalls false ++ [.handleWrite (.wrote 1)])).map
      (fun s => (s.before, s.conn.trace)) =
      some ([[1, 2]], [.connection true, .write [1], .write [2]] ++ [.shutdownWrite]) := by
    decide +kernel
  obtain ⟨s, reached, ends⟩ := System.Reachable.of_replay sample_initial run
  exact ⟨s, reached, congrArg Prod.fst ends, shutdown_graceful reached (congrArg Prod.snd ends)⟩

/-- `shutdown` in the loop thread overtakes a queued send, and so does a `handleWrite`
that empties the buffer while a send is queued: the write side is closed before the
message is accepted. `sendInLoop` then writes it all the same, and the kernel refuses it. -/
theorem shutdown_overtakes :
    (∃ s u : State Bool, (calls true).Reachable (Working true) s ∧ s.before = [[1]] ∧
      s.conn.trace = [.connection true, .shutdownWrite] ∧
      (calls true).next s (.runFunctor (.failed EPIPE)) = some u ∧
      u.conn.trace = s.conn.trace ++ [.write []]) ∧
    ∃ s u : State Bool, (calls true).Reachable (Working true) s ∧ s.before = [[1, 2], [3]] ∧
      s.conn.trace = [.connection true, .write [1], .write [2], .shutdownWrite] ∧
      (calls true).next s (.runFunctor (.failed EPIPE)) = some u ∧
      u.conn.trace = s.conn.trace ++ [.write []] := by
  have inline : ((calls true).execute (Working true) sample
      (sendCalls false [1] 0 ++ shutdownCalls true ++ [.doPendingFunctors])).map
      (fun s => (s.before, s.conn.trace,
        ((calls true).next s (.runFunctor (.failed EPIPE))).map fun u => u.conn.trace)) =
      some ([[1]], [.connection true, .shutdownWrite],
        some ([.connection true, .shutdownWrite] ++ [.write []])) := by decide +kernel
  have deferred : ((calls true).execute (Working true) sample
      (sendCalls true [1, 2] 1 ++ sendCalls false [3] 0 ++ shutdownCalls false ++
        [.handleWrite (.wrote 1), .doPendingFunctors])).map
      (fun s => (s.before, s.conn.trace,
        ((calls true).next s (.runFunctor (.failed EPIPE))).map fun u => u.conn.trace)) =
      some ([[1, 2], [3]], [.connection true, .write [1], .write [2], .shutdownWrite],
        some ([.connection true, .write [1], .write [2], .shutdownWrite] ++ [.write []])) := by
    decide +kernel
  obtain ⟨s, reached, ends⟩ := System.Reachable.of_replay sample_initial inline
  obtain ⟨v, reached', ends'⟩ := System.Reachable.of_replay sample_initial deferred
  simp only [Prod.mk.injEq] at ends ends'
  obtain ⟨u, hn, refused⟩ := Option.map_eq_some_iff.mp ends.2.2
  obtain ⟨w, hn', refused'⟩ := Option.map_eq_some_iff.mp ends'.2.2
  exact ⟨⟨s, u, reached, ends.1, ends.2.1, hn, ends.2.1 ▸ refused⟩,
    v, w, reached', ends'.1, ends'.2.1, hn', ends'.2.1 ▸ refused'⟩

end Run

end Threads

end TinyNetwork.ConnectionShutdown

import TinyNetwork.TcpConnection
import TinyNetwork.Transition

/-! What `TcpConnection::send` captures. The caller owns a string in memory and a
`Buffer`, and may overwrite or free them as soon as a call has returned. In the
loop thread both overloads read the argument on the spot; from another thread
`send(const std::string&)` binds the pointer and the length, and `send(Buffer*)`
binds a copy. `sendInLoop` reads what was bound when the functor runs. -/
namespace TinyNetwork.SendCapture
open Transition MachineWord

abbrev Memory := ℕ → Option Byte

def load (memory : Memory) (data len : ℕ) : List (Option Byte) :=
  (List.range len).map fun i => memory (data + i)

structure Caller where
  memory : Memory
  buffer : { b : Buffer // b.WellFormed }

inductive Argument where
  | string (c_str size : ℕ)
  | buffer
  deriving DecidableEq

def Caller.content (c : Caller) : Argument → List (Option Byte)
  | .string c_str size => load c.memory c_str size
  | .buffer => c.buffer.1.readable.map some

/-- What `std::bind` stored in the functor. -/
inductive Bound where
  | pointer (data len : ℕ)
  | message (bytes : List (Option Byte))

def Bound.read (memory : Memory) : Bound → List (Option Byte)
  | .pointer data len => load memory data len
  | .message bytes => bytes

/-- Calls of `send` are numbered by `calls`. `received` is what reached `sendInLoop`, by
call, and the queue holds the functors of `send` only. -/
structure State where
  state_ : StateE
  caller : Caller
  calls : ℕ
  pendingFunctors_ : List (ℕ × Bound)
  functors : List (ℕ × Bound)
  received : List (ℕ × List (Option Byte))

inductive Action where
  | send (inLoopThread : Bool) (argument : Argument)
  | store (caller : Caller)
  | setState (state : StateE)
  | doPendingFunctors
  | runFunctor

def State.receive (s : State) (bytes : List (Option Byte)) : State :=
  { s with received := s.received ++ [(s.calls, bytes)] }

def State.queueInLoop (s : State) (bound : Bound) : State :=
  { s with pendingFunctors_ := s.pendingFunctors_ ++ [(s.calls, bound)] }

def State.setBuffer (s : State) (b : { b : Buffer // b.WellFormed }) : State :=
  { s with caller := { s.caller with buffer := b } }

def sendString (s : State) (inLoopThread : Bool) (c_str size : ℕ) : State :=
  if s.state_ = .kConnected then
    if inLoopThread then s.receive (load s.caller.memory c_str size)
    else s.queueInLoop (.pointer c_str size)
  else s

def sendBuffer (s : State) (inLoopThread : Bool) : State :=
  let buf := s.caller.buffer
  if s.state_ = .kConnected then
    if inLoopThread then
      (s.receive (MemoryRegion.peek buf.1.buffer_ buf.1.readerIndex_ buf.1.readableBytes)).setBuffer
        ⟨buf.1.retrieveAll, Buffer.retrieveAll_wellFormed buf.2⟩
    else
      (s.queueInLoop (.message buf.1.retrieveAllAsString.1)).setBuffer
        ⟨buf.1.retrieveAllAsString.2, Buffer.retrieve_wellFormed buf.2 _⟩
  else s

def Caller.alive (c : Caller) (argument : Argument) : Bool :=
  (c.content argument).all Option.isSome

def send (s : State) (inLoopThread : Bool) : Argument → State
  | .string c_str size => sendString s inLoopThread c_str size
  | .buffer => sendBuffer s inLoopThread

def next (s : State) : Action → Option State
  | .send inLoopThread argument =>
    if s.caller.alive argument then
      some { send s inLoopThread argument with calls := s.calls + 1 }
    else none
  | .store caller => some { s with caller := caller }
  | .setState state => some { s with state_ := state }
  | .doPendingFunctors =>
    if s.functors = [] then
      some { s with functors := s.pendingFunctors_, pendingFunctors_ := [] }
    else none
  | .runFunctor =>
    match s.functors with
    | [] => none
    | (call, bound) :: rest =>
      some { s with
        functors := rest
        received := s.received ++ [(call, bound.read s.caller.memory)] }

def sending : System State Action where
  init s := s.calls = 0 ∧ s.pendingFunctors_ = [] ∧ s.functors = [] ∧ s.received = []
  next := next

structure Numbered (s : State) : Prop where
  queued : ∀ p ∈ s.functors ++ s.pendingFunctors_, p.1 < s.calls
  received : ∀ p ∈ s.received, p.1 < s.calls

theorem send_cases (s : State) (inLoopThread : Bool) (argument : Argument) :
    ((send s inLoopThread argument).pendingFunctors_ = s.pendingFunctors_ ∧
      (send s inLoopThread argument).received = s.received ∧ s.state_ ≠ .kConnected) ∨
    ((send s inLoopThread argument).pendingFunctors_ = s.pendingFunctors_ ∧
      (send s inLoopThread argument).received =
        s.received ++ [(s.calls, s.caller.content argument)] ∧ inLoopThread = true) ∨
    ∃ bound, (send s inLoopThread argument).pendingFunctors_ =
        s.pendingFunctors_ ++ [(s.calls, bound)] ∧
      (send s inLoopThread argument).received = s.received ∧
      s.state_ = .kConnected ∧ inLoopThread = false ∧
      bound = match argument with
        | .string c_str size => .pointer c_str size
        | .buffer => .message (s.caller.content .buffer) := by
  have whole : s.caller.buffer.1.retrieveAllAsString.1 = s.caller.content .buffer :=
    Buffer.retrieveAllAsString_fst s.caller.buffer.2
  cases argument with
  | string c_str size =>
    simp only [send, sendString]
    split_ifs with connected inLoop
    · exact .inr (.inl ⟨rfl, rfl, inLoop⟩)
    · exact .inr (.inr ⟨_, rfl, rfl, connected, by simpa using inLoop, rfl⟩)
    · exact .inl ⟨rfl, rfl, connected⟩
  | buffer =>
    simp only [send, sendBuffer]
    split_ifs with connected inLoop
    · refine .inr (.inl ⟨rfl, ?_, inLoop⟩)
      rw [← whole]
      rfl
    · refine .inr (.inr ⟨_, rfl, rfl, connected, by simpa using inLoop, ?_⟩)
      rw [whole]
    · exact .inl ⟨rfl, rfl, connected⟩

theorem send_functors (s : State) (inLoopThread : Bool) (argument : Argument) :
    (send s inLoopThread argument).functors = s.functors := by
  cases argument <;> simp only [send, sendString, sendBuffer] <;> split_ifs <;> rfl

theorem next_cases {s t : State} {a : Action} (h : next s a = some t) :
    (∃ inLoopThread argument, a = .send inLoopThread argument ∧
      t = { send s inLoopThread argument with calls := s.calls + 1 }) ∨
    (t.calls = s.calls ∧ t.received = s.received ∧
      ∀ p ∈ t.functors ++ t.pendingFunctors_, p ∈ s.functors ++ s.pendingFunctors_) ∨
    ∃ call bound, (call, bound) ∈ s.functors ∧ t.calls = s.calls ∧
      t.received = s.received ++ [(call, bound.read s.caller.memory)] ∧
      ∀ p ∈ t.functors ++ t.pendingFunctors_, p ∈ s.functors ++ s.pendingFunctors_ := by
  cases a with
  | send inLoopThread argument =>
    obtain ⟨-, rfl⟩ := guard_met h
    exact .inl ⟨inLoopThread, argument, rfl, rfl⟩
  | store caller => exact .inr (.inl (Option.some.inj h ▸ ⟨rfl, rfl, fun _ => id⟩))
  | setState state => exact .inr (.inl (Option.some.inj h ▸ ⟨rfl, rfl, fun _ => id⟩))
  | doPendingFunctors =>
    obtain ⟨-, rfl⟩ := guard_met h
    exact .inr (.inl ⟨rfl, rfl, fun p hp => by simpa using Or.inr hp⟩)
  | runFunctor =>
    simp only [next] at h
    split at h
    · cases h
    · next call bound rest batch =>
      refine .inr (.inr ⟨call, bound, by simp [batch], ?_⟩)
      refine Option.some.inj h ▸ ⟨rfl, rfl, fun p hp => ?_⟩
      rw [batch]
      exact List.mem_cons_of_mem _ hp

theorem next_numbered {s t : State} {a : Action} (hs : Numbered s) (h : next s a = some t) :
    Numbered t := by
  rcases next_cases h with ⟨inLoopThread, argument, -, rfl⟩ | ⟨calls, received, queued⟩ |
    ⟨call, bound, mem, calls, received, queued⟩
  · have functors := send_functors s inLoopThread argument
    have older : ∀ p ∈ s.functors ++ s.pendingFunctors_, p.1 < s.calls + 1 :=
      fun p hp => Nat.lt_succ_of_lt (hs.queued p hp)
    have before : ∀ p ∈ s.received, p.1 < s.calls + 1 :=
      fun p hp => Nat.lt_succ_of_lt (hs.received p hp)
    rcases send_cases s inLoopThread argument with
      ⟨pending, received, -⟩ | ⟨pending, received, -⟩ | ⟨bound, pending, received, -⟩
    · exact ⟨by simpa only [functors, pending] using older, by simpa only [received]⟩
    · refine ⟨by simpa only [functors, pending] using older, ?_⟩
      simp only [received, List.forall_mem_append, List.forall_mem_singleton]
      exact ⟨before, Nat.lt_succ_self _⟩
    · refine ⟨?_, by simpa only [received]⟩
      simp only [functors, pending, ← List.append_assoc, List.forall_mem_append,
        List.forall_mem_singleton] at older ⊢
      exact ⟨older, Nat.lt_succ_self _⟩
  · exact ⟨fun p hp => calls ▸ hs.queued p (queued p hp), fun p hp =>
      calls ▸ hs.received p (received ▸ hp)⟩
  · refine ⟨fun p hp => calls ▸ hs.queued p (queued p hp), fun p hp => ?_⟩
    rw [received, List.mem_append, List.mem_singleton] at hp
    rw [calls]
    rcases hp with old | rfl
    · exact hs.received p old
    · exact hs.queued (call, bound) (List.mem_append_left _ mem)

theorem reachable_numbered {s : State} (h : sending.Reachable Any s) : Numbered s := by
  refine h.invariant (P := Numbered) (fun s hi => ?_) fun _ _ _ hn _ hstep =>
    next_numbered hn hstep
  obtain ⟨-, pending, functors, received⟩ := hi
  exact ⟨by simp [pending, functors], by simp [received]⟩

structure Settled (call : ℕ) (content : List (Option Byte)) (s : State) : Prop where
  made : call < s.calls
  bound : ∀ bound, (call, bound) ∈ s.functors ++ s.pendingFunctors_ →
    ∀ memory, bound.read memory = content
  received : ∀ bytes, (call, bytes) ∈ s.received → bytes = content

theorem next_settled {call : ℕ} {content : List (Option Byte)} {s t : State} {a : Action}
    (hs : Settled call content s) (h : next s a = some t) : Settled call content t := by
  have made := hs.made
  rcases next_cases h with ⟨inLoopThread, argument, -, rfl⟩ | ⟨calls, received, queued⟩ |
    ⟨other, bound, mem, calls, received, queued⟩
  · have functors := send_functors s inLoopThread argument
    have new : call ≠ s.calls := by omega
    rcases send_cases s inLoopThread argument with
      ⟨pending, received, -⟩ | ⟨pending, received, -⟩ | ⟨bound, pending, received, -⟩
    · exact ⟨Nat.lt_succ_of_lt made, by simpa only [functors, pending] using hs.bound,
        by simpa only [received] using hs.received⟩
    · refine ⟨Nat.lt_succ_of_lt made, by simpa only [functors, pending] using hs.bound, ?_⟩
      intro bytes mem
      simp only [received, List.mem_append, List.mem_singleton, Prod.mk.injEq, new, false_and,
        or_false] at mem
      exact hs.received bytes mem
    · refine ⟨Nat.lt_succ_of_lt made, ?_, by simpa only [received] using hs.received⟩
      intro b mem
      simp only [functors, pending, ← List.append_assoc] at mem
      rw [List.mem_append, List.mem_singleton, Prod.mk.injEq] at mem
      exact hs.bound b (mem.resolve_right fun same => new same.1)
  · exact ⟨calls ▸ made, fun b hb => hs.bound b (queued _ hb),
      fun bytes hb => hs.received bytes (received ▸ hb)⟩
  · refine ⟨calls ▸ made, fun b hb => hs.bound b (queued _ hb), fun bytes hb => ?_⟩
    rw [received, List.mem_append, List.mem_singleton, Prod.mk.injEq] at hb
    rcases hb with old | ⟨rfl, rfl⟩
    · exact hs.received bytes old
    · exact hs.bound bound (List.mem_append_left _ mem) _

section Flush

theorem store_path (s : State) (caller : Caller) :
    sending.Path Any s { s with caller := caller } :=
  System.Path.single (a := .store caller) trivial rfl

theorem swap_path {s : State} (h : s.functors = []) :
    sending.Path Any s { s with functors := s.pendingFunctors_, pendingFunctors_ := [] } :=
  System.Path.single (a := .doPendingFunctors) trivial (if_pos h)

def State.ran (s : State) : State :=
  { s with
    functors := []
    received := s.received ++ s.functors.map fun p => (p.1, p.2.read s.caller.memory) }

theorem run_batch (s : State) : sending.Path Any s s.ran := by
  obtain ⟨state, caller, calls, pending, batch, received⟩ := s
  induction batch generalizing received with
  | nil =>
    simp only [State.ran, List.map_nil, List.append_nil]
    exact System.Path.refl _
  | cons f rest ih =>
    have first : sending.Path Any ⟨state, caller, calls, pending, f :: rest, received⟩
        ⟨state, caller, calls, pending, rest,
          received ++ [(f.1, f.2.read caller.memory)]⟩ :=
      System.Path.single (a := .runFunctor) trivial rfl
    have later := ih (received ++ [(f.1, f.2.read caller.memory)])
    simp only [State.ran, List.append_assoc, List.singleton_append] at later
    exact first.trans later

/-- Whatever is queued now can be received as it reads now. -/
theorem flush (s : State) :
    ∃ t, sending.Path Any s t ∧ ∀ p ∈ s.functors ++ s.pendingFunctors_,
      (p.1, p.2.read s.caller.memory) ∈ t.received := by
  have swap := (run_batch s).trans (swap_path rfl)
  refine ⟨_, swap.trans (run_batch _), fun p hp => ?_⟩
  simp only [State.ran, List.mem_append, List.mem_map]
  rcases List.mem_append.mp hp with first | second
  · exact .inl (.inr ⟨p, first, rfl⟩)
  · exact .inr ⟨p, second, rfl⟩

end Flush

/-- The argument is captured at the call: nothing is sent, the call reads it on the spot,
the functor owns a copy, or there is nothing to read. -/
def Captured (s : State) (inLoopThread : Bool) (argument : Argument) : Prop :=
  s.state_ ≠ .kConnected ∨ inLoopThread = true ∨ argument = .buffer ∨
    s.caller.content argument = []

theorem load_length (memory : Memory) (data len : ℕ) : (load memory data len).length = len := by
  simp [load]

theorem captured_settled {s t : State} {inLoopThread : Bool} {argument : Argument}
    (hs : Numbered s) (captured : Captured s inLoopThread argument)
    (h : next s (.send inLoopThread argument) = some t) :
    Settled s.calls (s.caller.content argument) t := by
  have unqueued : ∀ b, (s.calls, b) ∉ s.functors ++ s.pendingFunctors_ :=
    fun b mem => lt_irrefl _ (hs.queued _ mem)
  have unreceived : ∀ bytes, (s.calls, bytes) ∉ s.received :=
    fun bytes mem => lt_irrefl _ (hs.received _ mem)
  have functors := send_functors s inLoopThread argument
  obtain ⟨-, rfl⟩ := guard_met h
  rcases send_cases s inLoopThread argument with
    ⟨pending, received, -⟩ | ⟨pending, received, -⟩ |
    ⟨bound, pending, received, connected, foreign, shape⟩
  · refine ⟨Nat.lt_succ_self _, fun b mem => ?_, fun bytes mem => ?_⟩
    · exact absurd (by simpa only [functors, pending] using mem) (unqueued b)
    · exact absurd (by simpa only [received] using mem) (unreceived bytes)
  · refine ⟨Nat.lt_succ_self _, fun b mem => ?_, fun bytes mem => ?_⟩
    · exact absurd (by simpa only [functors, pending] using mem) (unqueued b)
    · simp only [received, List.mem_append, unreceived, List.mem_singleton, Prod.mk.injEq,
        true_and, false_or] at mem
      exact mem
  · refine ⟨Nat.lt_succ_self _, fun b mem memory => ?_, fun bytes mem => ?_⟩
    · simp only [functors, pending, ← List.append_assoc] at mem
      rw [List.mem_append, List.mem_singleton, Prod.mk.injEq] at mem
      rcases mem with old | ⟨-, rfl⟩
      · exact absurd old (unqueued b)
      · rcases captured with closed | inLoop | rfl | empty
        · exact absurd connected closed
        · simp [foreign] at inLoop
        · rw [shape]
          rfl
        · rw [empty, shape]
          cases argument with
          | string c_str size =>
            have none : size = 0 := by
              rw [← load_length s.caller.memory c_str size]
              exact congrArg List.length empty
            rw [none]
            rfl
          | buffer => exact empty
    · exact absurd (by simpa only [received] using mem) (unreceived bytes)

/-- Otherwise the caller frees its string before the functor runs. -/
theorem uncaptured_lost {s t : State} {inLoopThread : Bool} {argument : Argument}
    (h : next s (.send inLoopThread argument) = some t)
    (hn : ¬Captured s inLoopThread argument) :
    ∃ u bytes, sending.Path Any t u ∧ (s.calls, bytes) ∈ u.received ∧
      bytes ≠ s.caller.content argument := by
  simp only [Captured, not_or, not_not] at hn
  obtain ⟨connected, foreign, overload, content⟩ := hn
  obtain ⟨alive, rfl⟩ := guard_met h
  cases argument with
  | buffer => exact absurd rfl overload
  | string c_str size =>
    have queued : (s.calls, Bound.pointer c_str size) ∈
        (send s inLoopThread (.string c_str size)).functors ++
          (send s inLoopThread (.string c_str size)).pendingFunctors_ := by
      have outside : inLoopThread = false := by simpa using foreign
      simp [send, sendString, connected, outside, State.queueInLoop]
    have free := store_path { send s inLoopThread (.string c_str size) with
      calls := s.calls + 1 } ⟨fun _ => none, s.caller.buffer⟩
    obtain ⟨u, run, received⟩ := flush _
    refine ⟨u, _, free.trans run, received _ queued, fun same => ?_⟩
    obtain ⟨byte, rest, first⟩ := List.exists_cons_of_ne_nil content
    simp only [Caller.alive, first, List.all_cons, Bool.and_eq_true] at alive
    rw [first] at same
    have head : (load (fun _ => none) c_str size).head? = some byte := by
      rw [show load (fun _ => none) c_str size = byte :: rest from same]
      rfl
    have gone : ∀ b ∈ load (fun _ => none) c_str size, b = none := by simp [load]
    have none := gone byte (List.mem_of_mem_head? head)
    simp [none] at alive

/-- `sendInLoop` receives the content at the call in every continuation exactly when the
argument was captured at the call. -/
theorem send_receives_content {s t : State} {inLoopThread : Bool} {argument : Argument}
    (hs : sending.Reachable Any s) (h : next s (.send inLoopThread argument) = some t) :
    (∀ u, sending.Path Any t u → ∀ bytes, (s.calls, bytes) ∈ u.received →
      bytes = s.caller.content argument) ↔ Captured s inLoopThread argument := by
  have numbered := reachable_numbered hs
  constructor
  · intro always
    by_contra hn
    obtain ⟨u, bytes, run, received, differs⟩ := uncaptured_lost h hn
    exact differs (always u run bytes received)
  · intro captured u run
    have settled := run.stable (P := Settled s.calls (s.caller.content argument))
      (fun _ _ _ hu _ hstep => next_settled hu hstep) (captured_settled numbered captured h)
    exact settled.received

def sample : State where
  state_ := .kConnected
  caller := ⟨fun i => if i = 0 then some 97 else none, Buffer.fresh, Buffer.fresh_wellFormed⟩
  calls := 0
  pendingFunctors_ := []
  functors := []
  received := []

theorem sample_reachable : sending.Reachable Any sample :=
  System.Reachable.initial ⟨rfl, rfl, rfl, rfl⟩

theorem send_receives_content_in_loop :
    ∃ t, next sample (.send true (.string 0 1)) = some t ∧
      ((∀ u, sending.Path Any t u → ∀ bytes, (sample.calls, bytes) ∈ u.received →
        bytes = sample.caller.content (.string 0 1)) ↔ Captured sample true (.string 0 1)) := by
  have sent : (next sample (.send true (.string 0 1))).isSome = true := by decide
  obtain ⟨t, ht⟩ := Option.isSome_iff_exists.mp sent
  exact ⟨t, ht, send_receives_content sample_reachable ht⟩

/-- Sent from another thread, overwritten, and received with the new byte. -/
theorem send_receives_overwritten :
    sample.caller.content (.string 0 1) = [some 97] ∧
      ∃ t u, next sample (.send false (.string 0 1)) = some t ∧ sending.Path Any t u ∧
        u.received = [(sample.calls, [some 98])] := by
  refine ⟨by decide, { sample with calls := 1, pendingFunctors_ := [(0, .pointer 0 1)] }, ?_⟩
  have run : (sending.execute Any
      { sample with calls := 1, pendingFunctors_ := [(0, .pointer 0 1)] }
      [.store ⟨fun _ => some 98, sample.caller.buffer⟩, .doPendingFunctors,
        .runFunctor]).map State.received = some [(0, [some 98])] := by decide +kernel
  obtain ⟨u, hu, received⟩ := Option.map_eq_some_iff.mp run
  exact ⟨u, rfl, System.Path.of_execute hu, received⟩

end TinyNetwork.SendCapture

import TinyNetwork.EPollPoller
import TinyNetwork.Transition

/-! The channels of one poller over their lives. The fact that a descriptor is watched is
kept three times: in the channel's `index_`, in the poller's `channels_` and in the
kernel's interest list. Channels are created and destroyed; those alive have distinct
descriptors, and a channel is destroyed unregistered, as its owners `remove()` it first.
The three records agree in every reachable state, so no `epoll_ctl` is ever refused. A
second invariant, that a channel without interest is not watched, is kept only by
operations that do not leave an unwatched channel without interest. -/
namespace TinyNetwork
open Transition

inductive ChannelOp where
  | enableReading
  | disableReading
  | enableWriting
  | disableWriting
  | disableAll
  | remove

namespace EPollPoller

def perform (p : EPollPoller) (c : Channel) : ChannelOp → EPollPoller × Channel
  | .enableReading => p.enableReading c
  | .disableReading => p.disableReading c
  | .enableWriting => p.enableWriting c
  | .disableWriting => p.disableWriting c
  | .disableAll => p.disableAll c
  | .remove => p.removeChannel c

def interestAfter (events : EventMask) : ChannelOp → EventMask
  | .enableReading => events ||| Channel.kReadEvent
  | .disableReading => events &&& ~~~Channel.kReadEvent
  | .enableWriting => events ||| Channel.kWriteEvent
  | .disableWriting => events &&& ~~~Channel.kWriteEvent
  | .disableAll => events &&& Channel.kNoneEvent
  | .remove => events

variable {p : EPollPoller} {c : Channel}

theorem perform_update {op : ChannelOp} (keeps : op ≠ .remove) :
    p.perform c op = p.updateChannel { c with events_ := interestAfter c.events_ op } := by
  cases op with
  | remove => exact absurd rfl keeps
  | _ => rfl

structure Recorded (p : EPollPoller) (c : Channel) : Prop where
  mapped : p.channels_ c.fd_ = if c.index_ = .kNew then none else some c.address
  interested : p.interest c.fd_ = if c.index_ = .kAdded then some (c.address, c.events_) else none

def Absent (p : EPollPoller) (fd : ℤ) : Prop := p.channels_ fd = none ∧ p.interest fd = none

def SameElsewhere (p q : EPollPoller) (fd : ℤ) : Prop :=
  ∀ other, other ≠ fd → q.channels_ other = p.channels_ other ∧ q.interest other = p.interest other

theorem SameElsewhere.trans {q r : EPollPoller} {fd : ℤ} (h : SameElsewhere p q fd)
    (k : SameElsewhere q r fd) : SameElsewhere p r fd := fun other away =>
  ⟨(k other away).1.trans (h other away).1, (k other away).2.trans (h other away).2⟩

@[simp] theorem update_channels (operation : Operation) :
    (p.update operation c).channels_ = p.channels_ := by
  cases operation <;> cases held : p.interest c.fd_ <;> simp [update, epoll_ctl, held]

theorem update_elsewhere (operation : Operation) :
    SameElsewhere p (p.update operation c) c.fd_ := fun other away => by
  cases operation <;> cases held : p.interest c.fd_ <;> simp [update, epoll_ctl, held, away]

theorem update_add (absent : p.interest c.fd_ = none) :
    (p.update .EPOLL_CTL_ADD c).interest c.fd_ = some (c.address, c.events_) := by
  simp [update, epoll_ctl, absent]

theorem update_mod (present : p.interest c.fd_ ≠ none) :
    (p.update .EPOLL_CTL_MOD c).interest c.fd_ = some (c.address, c.events_) := by
  obtain ⟨event, held⟩ := Option.ne_none_iff_exists'.mp present
  simp [update, epoll_ctl, held]

theorem update_del : (p.update .EPOLL_CTL_DEL c).interest c.fd_ = none := by
  cases held : p.interest c.fd_ <;> simp [update, epoll_ctl, held]

theorem mapped_elsewhere (fd : ℤ) (entry : Option ℕ) :
    SameElsewhere p { p with channels_ := Function.update p.channels_ fd entry } fd :=
  fun _ away => ⟨Function.update_of_ne away _ _, rfl⟩

theorem updateChannel_recorded (h : Recorded p c) (events : EventMask) :
    Recorded (p.updateChannel { c with events_ := events }).1
        (p.updateChannel { c with events_ := events }).2 ∧
      SameElsewhere p (p.updateChannel { c with events_ := events }).1 c.fd_ := by
  obtain ⟨mapped, interested⟩ := h
  cases index : c.index_ with
  | kNew =>
    simp only [index, reduceCtorEq, if_false] at interested
    refine ⟨⟨?_, update_add interested⟩, (mapped_elsewhere _ _).trans (update_elsewhere _)⟩
    simp [updateChannel]
  | kDeleted =>
    simp only [index, reduceCtorEq, if_false] at mapped interested
    refine ⟨⟨?_, update_add interested⟩, update_elsewhere _⟩
    simpa [updateChannel] using mapped
  | kAdded =>
    simp only [index, reduceCtorEq, if_false, if_true] at mapped interested
    have present : p.interest c.fd_ ≠ none := by simp [interested]
    simp only [updateChannel]
    split_ifs
    · refine ⟨⟨?_, update_del⟩, update_elsewhere _⟩
      simpa using mapped
    · refine ⟨⟨?_, update_mod present⟩, update_elsewhere _⟩
      simpa using mapped

theorem removeChannel_recorded (h : Recorded p c) :
    Recorded (p.removeChannel c).1 (p.removeChannel c).2 ∧
      SameElsewhere p (p.removeChannel c).1 c.fd_ := by
  simp only [removeChannel]
  split_ifs with added
  · refine ⟨⟨?_, update_del⟩, (mapped_elsewhere _ _).trans (update_elsewhere _)⟩
    simp
  · have interested := h.interested
    rw [if_neg added] at interested
    refine ⟨⟨?_, interested⟩, mapped_elsewhere _ _⟩
    simp

theorem Recorded.elsewhere {q : EPollPoller} {fd : ℤ} (h : Recorded p c)
    (same : SameElsewhere p q fd) (away : c.fd_ ≠ fd) : Recorded q c :=
  ⟨(same _ away).1.trans h.mapped, (same _ away).2.trans h.interested⟩

theorem perform_recorded (h : Recorded p c) (op : ChannelOp) :
    Recorded (p.perform c op).1 (p.perform c op).2 ∧
      SameElsewhere p (p.perform c op).1 c.fd_ := by
  by_cases removes : op = .remove
  · subst removes
    exact removeChannel_recorded h
  · rw [perform_update removes]
    exact updateChannel_recorded h _

@[simp] theorem update_issued (operation : Operation) :
    (p.update operation c).issued = p.issued ++ [⟨operation, c.fd_, p.watches c.fd_⟩] := rfl

/-- What `q` issued beyond the calls of `p` was legal when it was issued. -/
def IssuesLegal (p q : EPollPoller) : Prop := ∀ k ∈ q.issued, k ∈ p.issued ∨ k.Legal

theorem update_legal {operation : Operation}
    (legal : CtlCall.Legal ⟨operation, c.fd_, p.watches c.fd_⟩) :
    IssuesLegal p (p.update operation c) := fun k mem => by
  rcases List.mem_append.mp mem with old | new
  · exact .inl old
  · exact .inr (List.mem_singleton.mp new ▸ legal)

theorem Recorded.watches (h : Recorded p c) : p.watches c.fd_ = decide (c.index_ = .kAdded) := by
  rw [EPollPoller.watches, h.interested]
  split_ifs with added <;> simp [added]

/-- A channel is added while its descriptor is absent and changed while it is present. -/
theorem updateChannel_legal (h : Recorded p c) (events : EventMask) :
    IssuesLegal p (p.updateChannel { c with events_ := events }).1 := by
  have watched := h.watches
  cases index : c.index_ with
  | kNew =>
    simp only [index, reduceCtorEq, decide_false] at watched
    simp only [updateChannel]
    exact update_legal (p := { p with channels_ := _ }) watched
  | kDeleted =>
    simp only [index, reduceCtorEq, decide_false] at watched
    exact update_legal watched
  | kAdded =>
    simp only [index, decide_true] at watched
    simp only [updateChannel]
    split_ifs
    · exact update_legal watched
    · exact update_legal watched

theorem removeChannel_legal (h : Recorded p c) : IssuesLegal p (p.removeChannel c).1 := by
  have watched := h.watches
  simp only [removeChannel]
  split_ifs with added
  · simp only [added, decide_true] at watched
    exact update_legal (p := { p with channels_ := _ }) watched
  · exact fun k mem => .inl mem

theorem perform_legal (h : Recorded p c) (op : ChannelOp) :
    IssuesLegal p (p.perform c op).1 := by
  by_cases removes : op = .remove
  · subst removes
    exact removeChannel_legal h
  · rw [perform_update removes]
    exact updateChannel_legal h _

theorem updateChannel_index :
    (p.updateChannel c).2.index_ =
      if c.index_ = .kAdded ∧ c.events_ = Channel.kNoneEvent then .kDeleted else .kAdded := by
  cases index : c.index_ with
  | kNew => simp [updateChannel, index]
  | kDeleted => simp [updateChannel, index]
  | kAdded =>
    simp only [updateChannel, index, Channel.isNoneEvent, beq_iff_eq, true_and]
    split_ifs <;> simp [index]

theorem perform_identity (op : ChannelOp) :
    (p.perform c op).2.address = c.address ∧ (p.perform c op).2.fd_ = c.fd_ ∧
      (p.perform c op).2.events_ = interestAfter c.events_ op := by
  by_cases removes : op = .remove
  · subst removes
    exact ⟨rfl, rfl, rfl⟩
  · rw [perform_update removes, updateChannel_channel]
    exact ⟨rfl, rfl, rfl⟩

end EPollPoller

structure ChannelRegistration where
  poller : EPollPoller
  alive : List ℕ
  channel : ℕ → Channel

namespace ChannelRegistration
open EPollPoller

inductive Action where
  | create (address : ℕ) (fd : ℤ)
  | perform (address : ℕ) (op : ChannelOp)
  | destroy (address : ℕ)

def next (s : ChannelRegistration) : Action → Option ChannelRegistration
  | .create a fd =>
    if a ∉ s.alive ∧ ∀ b ∈ s.alive, (s.channel b).fd_ ≠ fd then
      some { s with
        alive := a :: s.alive
        channel := Function.update s.channel a (Channel.construct a fd) }
    else none
  | .perform a op =>
    if a ∈ s.alive then
      some { s with
        poller := (s.poller.perform (s.channel a) op).1
        channel := Function.update s.channel a (s.poller.perform (s.channel a) op).2 }
    else none
  | .destroy a =>
    if a ∈ s.alive ∧ (s.channel a).index_ = .kNew then
      some { s with alive := s.alive.filter (· ≠ a) }
    else none

def construct : ChannelRegistration :=
  ⟨EPollPoller.construct, [], fun _ => Channel.construct 0 0⟩

def channelRegistration : System ChannelRegistration Action where
  init s := s = construct
  next := next

structure Agree (s : ChannelRegistration) : Prop where
  address : ∀ a ∈ s.alive, (s.channel a).address = a
  distinct : ∀ a ∈ s.alive, ∀ b ∈ s.alive, (s.channel a).fd_ = (s.channel b).fd_ → a = b
  recorded : ∀ a ∈ s.alive, Recorded s.poller (s.channel a)
  absent : ∀ fd, (∀ a ∈ s.alive, (s.channel a).fd_ ≠ fd) → Absent s.poller fd
  legal : ∀ k ∈ s.poller.issued, k.Legal

variable {s s' : ChannelRegistration}

theorem create_agree {a : ℕ} {fd : ℤ} (h : Agree s) (fresh : a ∉ s.alive)
    (free : ∀ b ∈ s.alive, (s.channel b).fd_ ≠ fd) :
    Agree { s with
      alive := a :: s.alive
      channel := Function.update s.channel a (Channel.construct a fd) } := by
  have kept : ∀ b ∈ s.alive,
      Function.update s.channel a (Channel.construct a fd) b = s.channel b := fun b alive =>
    Function.update_of_ne (ne_of_mem_of_not_mem alive fresh) _ _
  refine ⟨fun b hb => ?_, fun b hb c hc same => ?_, fun b hb => ?_, fun other away => ?_,
    h.legal⟩
  · rcases List.mem_cons.mp hb with rfl | alive
    · simp [Channel.construct]
    · simpa only [kept b alive] using h.address b alive
  · rcases List.mem_cons.mp hb with rfl | alive <;> rcases List.mem_cons.mp hc with rfl | alive'
    · rfl
    · simp only [kept c alive', Function.update_self] at same
      exact absurd same.symm (free c alive')
    · simp only [kept b alive, Function.update_self] at same
      exact absurd same (free b alive)
    · simp only [kept b alive, kept c alive'] at same
      exact h.distinct b alive c alive' same
  · rcases List.mem_cons.mp hb with rfl | alive
    · obtain ⟨unmapped, unwatched⟩ := h.absent fd free
      simp only [Function.update_self]
      exact ⟨unmapped, unwatched⟩
    · simpa only [kept b alive] using h.recorded b alive
  · refine h.absent other fun b alive => ?_
    simpa only [kept b alive] using away b (List.mem_cons_of_mem a alive)

theorem perform_agree {a : ℕ} (h : Agree s) (alive : a ∈ s.alive) (op : ChannelOp) :
    Agree { s with
      poller := (s.poller.perform (s.channel a) op).1
      channel := Function.update s.channel a (s.poller.perform (s.channel a) op).2 } := by
  obtain ⟨recorded, elsewhere⟩ := perform_recorded (h.recorded a alive) op
  obtain ⟨address, fd, -⟩ := perform_identity (p := s.poller) (c := s.channel a) op
  have fds : ∀ b, (Function.update s.channel a (s.poller.perform (s.channel a) op).2 b).fd_ =
      (s.channel b).fd_ := fun b => by
    by_cases same : b = a
    · rw [same, Function.update_self, fd]
    · rw [Function.update_of_ne same]
  refine ⟨fun b hb => ?_, fun b hb c hc same => ?_, fun b hb => ?_, fun other away => ?_,
    fun k mem => (perform_legal (h.recorded a alive) op k mem).elim (h.legal k) id⟩
  · by_cases same : b = a
    · simp only [same, Function.update_self, address]
      exact h.address a alive
    · simp only [Function.update_of_ne same]
      exact h.address b hb
  · simp only [fds] at same
    exact h.distinct b hb c hc same
  · by_cases same : b = a
    · simp only [same, Function.update_self]
      exact recorded
    · simp only [Function.update_of_ne same]
      exact (h.recorded b hb).elsewhere elsewhere fun shared =>
        same (h.distinct b hb a alive shared)
  · simp only [fds] at away
    obtain ⟨unmapped, unwatched⟩ := h.absent other away
    have apart : other ≠ (s.channel a).fd_ := (away a alive).symm
    exact ⟨(elsewhere other apart).1.trans unmapped, (elsewhere other apart).2.trans unwatched⟩

theorem destroy_agree {a : ℕ} (h : Agree s) (unregistered : (s.channel a).index_ = .kNew) :
    Agree { s with alive := s.alive.filter (· ≠ a) } := by
  have mem : ∀ b, b ∈ s.alive.filter (· ≠ a) ↔ b ∈ s.alive ∧ b ≠ a := fun b => by
    simp [List.mem_filter]
  refine ⟨fun b hb => ?_, fun b hb c hc same => ?_, fun b hb => ?_, fun other away => ?_,
    h.legal⟩
  · exact h.address b ((mem b).mp hb).1
  · exact h.distinct b ((mem b).mp hb).1 c ((mem c).mp hc).1 same
  · exact h.recorded b ((mem b).mp hb).1
  · by_cases last : a ∈ s.alive ∧ (s.channel a).fd_ = other
    · obtain ⟨alive, rfl⟩ := last
      have recorded := h.recorded a alive
      exact ⟨by simpa [unregistered] using recorded.mapped,
        by simpa [unregistered] using recorded.interested⟩
    · refine h.absent other fun b alive shared => ?_
      by_cases same : b = a
      · exact last (same ▸ ⟨alive, shared⟩)
      · exact away b ((mem b).mpr ⟨alive, same⟩) shared

theorem next_agree {a : Action} (h : Agree s) (hn : next s a = some s') : Agree s' := by
  cases a with
  | create a fd =>
    obtain ⟨⟨fresh, free⟩, rfl⟩ := guard_met hn
    exact create_agree h fresh free
  | perform a op =>
    obtain ⟨alive, rfl⟩ := guard_met hn
    exact perform_agree h alive op
  | destroy a =>
    obtain ⟨⟨-, unregistered⟩, rfl⟩ := guard_met hn
    exact destroy_agree h unregistered

theorem reachable_agree {ok : ChannelRegistration → Action → Prop}
    (h : channelRegistration.Reachable ok s) : Agree s := by
  refine h.invariant (P := Agree) (fun s₀ hi => ?_) fun _ _ _ hs _ hn => next_agree hs hn
  subst hi
  exact ⟨by simp [construct], by simp [construct], by simp [construct], fun _ _ => ⟨rfl, rfl⟩,
    by simp [construct, EPollPoller.construct]⟩

def Gone (p : EPollPoller) (a : ℕ) : Prop :=
  ∀ fd, p.channels_ fd ≠ some a ∧ ∀ events, p.interest fd ≠ some (a, events)

/-- `index_` says what the kernel watches and what `channels_` maps, both structures record
channels alive only, every `epoll_ctl` the poller has issued was legal, and `remove` leaves
the channel in neither structure, until it is registered again. -/
structure InStep (s : ChannelRegistration) : Prop where
  added : ∀ a ∈ s.alive, (s.channel a).index_ = .kAdded ↔
    s.poller.interest (s.channel a).fd_ ≠ none
  record : ∀ a ∈ s.alive, (s.channel a).index_ = .kAdded →
    s.poller.interest (s.channel a).fd_ = some (a, (s.channel a).events_)
  mapped : ∀ a ∈ s.alive, (s.channel a).index_ ≠ .kNew ↔
    s.poller.channels_ (s.channel a).fd_ = some a
  legal : ∀ k ∈ s.poller.issued, k.Legal
  watchedAlive : ∀ fd a events, s.poller.interest fd = some (a, events) →
    a ∈ s.alive ∧ (s.channel a).fd_ = fd ∧ (s.channel a).index_ = .kAdded
  mappedAlive : ∀ fd a, s.poller.channels_ fd = some a →
    a ∈ s.alive ∧ (s.channel a).fd_ = fd ∧ (s.channel a).index_ ≠ .kNew
  removed : ∀ a s', next s (.perform a .remove) = some s' →
    (s'.channel a).index_ = .kNew ∧ Absent s'.poller (s'.channel a).fd_ ∧ Gone s'.poller a
  unregistered : ∀ a ∈ s.alive, (s.channel a).index_ = .kNew →
    Absent s.poller (s.channel a).fd_ ∧ Gone s.poller a

/-- A descriptor is recorded for the channel alive that holds it. -/
theorem Agree.holder (h : Agree s) (fd : ℤ) (recorded : ¬Absent s.poller fd) :
    ∃ a ∈ s.alive, (s.channel a).fd_ = fd := by
  by_contra nobody
  exact recorded (h.absent fd fun a alive same => nobody ⟨a, alive, same⟩)

theorem Agree.watchedAlive (h : Agree s) {fd : ℤ} {a : ℕ} {events : EventMask}
    (watched : s.poller.interest fd = some (a, events)) :
    a ∈ s.alive ∧ (s.channel a).fd_ = fd ∧ (s.channel a).index_ = .kAdded := by
  obtain ⟨b, alive, rfl⟩ := h.holder fd fun absent => by simp [absent.2] at watched
  rw [(h.recorded b alive).interested, h.address b alive] at watched
  obtain ⟨added, same⟩ := guard_met watched
  cases same
  exact ⟨alive, rfl, added⟩

theorem Agree.mappedAlive (h : Agree s) {fd : ℤ} {a : ℕ}
    (mapped : s.poller.channels_ fd = some a) :
    a ∈ s.alive ∧ (s.channel a).fd_ = fd ∧ (s.channel a).index_ ≠ .kNew := by
  obtain ⟨b, alive, rfl⟩ := h.holder fd fun absent => by simp [absent.1] at mapped
  rw [(h.recorded b alive).mapped, h.address b alive] at mapped
  split_ifs at mapped with new
  cases mapped
  exact ⟨alive, rfl, new⟩

theorem Agree.unregistered (h : Agree s) {a : ℕ} (alive : a ∈ s.alive)
    (new : (s.channel a).index_ = .kNew) :
    Absent s.poller (s.channel a).fd_ ∧ Gone s.poller a := by
  refine ⟨⟨?_, ?_⟩, fun fd => ⟨fun mapped => ?_, fun events watched => ?_⟩⟩
  · rw [(h.recorded a alive).mapped, if_pos new]
  · rw [(h.recorded a alive).interested, new]
    rfl
  · exact (h.mappedAlive mapped).2.2 new
  · have added := (h.watchedAlive watched).2.2
    rw [new] at added
    cases added

theorem Agree.removed (h : Agree s) {a : ℕ} (hn : next s (.perform a .remove) = some s') :
    (s'.channel a).index_ = .kNew ∧ Absent s'.poller (s'.channel a).fd_ ∧ Gone s'.poller a := by
  have after := next_agree h hn
  obtain ⟨alive, rfl⟩ := guard_met hn
  have new : (Function.update s.channel a
      (s.poller.perform (s.channel a) .remove).2 a).index_ = .kNew := by
    rw [Function.update_self]
    rfl
  exact ⟨new, after.unregistered alive new⟩

theorem Agree.inStep (h : Agree s) : InStep s where
  added a alive := by
    rw [(h.recorded a alive).interested]
    split_ifs with added <;> simp [added]
  record a alive added := by
    rw [(h.recorded a alive).interested, if_pos added, h.address a alive]
  mapped a alive := by
    rw [(h.recorded a alive).mapped, h.address a alive]
    split_ifs with new <;> simp [new]
  legal := h.legal
  watchedAlive _ _ _ := h.watchedAlive
  mappedAlive _ _ := h.mappedAlive
  removed _ _ := h.removed
  unregistered _ := h.unregistered

/-- Registration in user space and the kernel's epoll set stay in step. -/
theorem registration_in_step (h : channelRegistration.Reachable Any s) : InStep s :=
  (reachable_agree h).inStep

theorem registration_in_step_two :
    ∃ s, channelRegistration.Reachable Any s ∧ s.alive = [2, 1] ∧
      s.poller.channels_ 7 = some 1 ∧ s.poller.interest 8 = none ∧
      s.poller.issued = [⟨.EPOLL_CTL_ADD, 7, false⟩, ⟨.EPOLL_CTL_ADD, 8, false⟩,
        ⟨.EPOLL_CTL_DEL, 7, true⟩, ⟨.EPOLL_CTL_DEL, 8, true⟩] ∧ InStep s := by
  have run : (channelRegistration.execute Any construct
      [.create 1 7, .perform 1 .enableReading, .create 2 8, .perform 2 .enableWriting,
        .perform 1 .disableAll, .perform 2 .remove]).map
      (fun s => (s.alive, s.poller.channels_ 7, s.poller.interest 8, s.poller.issued)) =
      some ([2, 1], some 1, none, [⟨.EPOLL_CTL_ADD, 7, false⟩, ⟨.EPOLL_CTL_ADD, 8, false⟩,
        ⟨.EPOLL_CTL_DEL, 7, true⟩, ⟨.EPOLL_CTL_DEL, 8, true⟩]) := by decide +kernel
  obtain ⟨s, reached, ends⟩ := System.Reachable.of_replay rfl run
  simp only [Prod.mk.injEq] at ends
  exact ⟨s, reached, ends.1, ends.2.1, ends.2.2.1, ends.2.2.2, registration_in_step reached⟩

section Interest

def Clears (c : Channel) : ChannelOp → Prop
  | .disableReading => c.events_ &&& ~~~Channel.kReadEvent = 0
  | .disableWriting => c.events_ &&& ~~~Channel.kWriteEvent = 0
  | .disableAll => True
  | _ => False

instance (c : Channel) (op : ChannelOp) : Decidable (Clears c op) := by
  cases op <;> unfold Clears <;> infer_instance

def WhileAdded (s : ChannelRegistration) : Action → Prop
  | .perform a op => Clears (s.channel a) op → (s.channel a).index_ = .kAdded
  | _ => True

instance (s : ChannelRegistration) (a : Action) : Decidable (WhileAdded s a) := by
  cases a <;> unfold WhileAdded <;> infer_instance

/-- No channel without interest is watched. -/
def Unwatching (s : ChannelRegistration) : Prop :=
  ∀ a ∈ s.alive, (s.channel a).events_ = 0 → s.poller.watches (s.channel a).fd_ = false

def Quiet (c : Channel) : Prop := c.events_ = 0 → c.index_ ≠ .kAdded

theorem unwatching_iff (h : Agree s) : Unwatching s ↔ ∀ a ∈ s.alive, Quiet (s.channel a) := by
  refine forall₂_congr fun a alive => imp_congr_right fun _ => ?_
  rw [watches, (h.recorded a alive).interested]
  split_ifs with added <;> simp [added]

theorem or_ne_zero {mask : EventMask} (h : mask ≠ 0) (events : EventMask) :
    events ||| mask ≠ 0 := fun zero => h <| by
  rw [← or_and_cancel events mask, zero]
  exact BitVec.zero_and

theorem clears_iff {c : Channel} {op : ChannelOp} (keeps : op ≠ .remove) :
    Clears c op ↔ interestAfter c.events_ op = 0 := by
  cases op with
  | remove => exact absurd rfl keeps
  | enableReading => simpa [Clears, interestAfter] using or_ne_zero (by decide) c.events_
  | enableWriting => simpa [Clears, interestAfter] using or_ne_zero (by decide) c.events_
  | disableReading => exact Iff.rfl
  | disableWriting => exact Iff.rfl
  | disableAll =>
    have none : c.events_ &&& Channel.kNoneEvent = 0 := BitVec.and_zero
    simp [Clears, interestAfter, none]

theorem perform_quiet (p : EPollPoller) (c : Channel) (op : ChannelOp) :
    Quiet (p.perform c op).2 ↔ (Clears c op → c.index_ = .kAdded) := by
  by_cases removes : op = .remove
  · subst removes
    simp [Quiet, perform, removeChannel, Clears]
  · rw [clears_iff removes, Quiet, (perform_identity op).2.2, perform_update removes,
      updateChannel_index]
    refine imp_congr_right fun zero => ?_
    have none : interestAfter c.events_ op = Channel.kNoneEvent := zero
    simp only [none, and_true]
    split_ifs with added <;> simp [added]

theorem next_unwatching {a : Action} (h : Agree s) (quiet : Unwatching s)
    (hn : next s a = some s') : Unwatching s' ↔ WhileAdded s a := by
  rw [unwatching_iff (next_agree h hn)]
  rw [unwatching_iff h] at quiet
  cases a with
  | create a fd =>
    obtain ⟨⟨fresh, -⟩, rfl⟩ := guard_met hn
    refine iff_of_true (fun b hb => ?_) trivial
    by_cases same : b = a
    · simp [same, Quiet, Channel.construct]
    · simp only [Function.update_of_ne same]
      exact quiet b ((List.mem_cons.mp hb).resolve_left same)
  | perform a op =>
    obtain ⟨alive, rfl⟩ := guard_met hn
    rw [WhileAdded, ← perform_quiet s.poller]
    constructor
    · intro all
      simpa using all a alive
    · intro here b hb
      by_cases same : b = a
      · simpa [same] using here
      · simpa [Function.update_of_ne same] using quiet b hb
  | destroy a =>
    obtain ⟨-, rfl⟩ := guard_met hn
    exact iff_of_true (fun b hb => quiet b (List.mem_filter.mp hb).1) trivial

/-- Along every run that clears the last bit of interest on watched channels only, no
channel without interest is watched, and a step that does otherwise breaks it at once. -/
theorem silent_unwatched (h : channelRegistration.Reachable WhileAdded s) :
    Unwatching s ∧ ∀ a s', next s a = some s' → (Unwatching s' ↔ WhileAdded s a) := by
  have quiet : Unwatching s := by
    refine h.invariant_under (I := Agree) (P := Unwatching) (fun _ => reachable_agree)
      (fun s₀ hi => ?_) fun _ _ _ agree hs ha hn => (next_unwatching agree hs hn).mpr ha
    subst hi
    simp [Unwatching, construct]
  exact ⟨quiet, fun a s' hn => next_unwatching (reachable_agree h) quiet hn⟩

theorem silent_unwatched_removed :
    ∃ s, channelRegistration.Reachable WhileAdded s ∧ s.alive = [1] ∧
      (s.channel 1).events_ = 0 ∧ Unwatching s := by
  have run : (channelRegistration.execute WhileAdded construct
      [.create 1 7, .perform 1 .enableReading, .perform 1 .disableAll, .perform 1 .remove]).map
      (fun s => (s.alive, (s.channel 1).events_)) = some ([1], 0) := by decide +kernel
  obtain ⟨s, reached, ends⟩ := System.Reachable.of_replay rfl run
  simp only [Prod.mk.injEq] at ends
  exact ⟨s, reached, ends.1, ends.2, (silent_unwatched reached).1⟩

theorem watching_of_run {run : List Action}
    (ends : (channelRegistration.execute Any construct run).map
      (fun s => (s.alive, (s.channel 1).fd_, (s.channel 1).events_, s.poller.interest 7)) =
      some ([1], 7, 0, some (1, 0))) :
    ∃ s, channelRegistration.execute Any construct run = some s ∧
      channelRegistration.Reachable Any s ∧ s.poller.interest 7 = some (1, 0) ∧
      ¬Unwatching s := by
  obtain ⟨s, left, fields⟩ := Option.map_eq_some_iff.mp ends
  simp only [Prod.mk.injEq] at fields
  obtain ⟨alive, fd, silent, watched⟩ := fields
  refine ⟨s, left, ⟨construct, rfl, System.Path.of_execute left⟩, watched, fun quiet => ?_⟩
  have unwatched := quiet 1 (by simp [alive]) silent
  rw [EPollPoller.watches, fd, watched] at unwatched
  cases unwatched

/-- `disableAll` on a channel never registered, and a second `disableAll`, put the
descriptor into the epoll set with an empty mask. -/
theorem silent_watched :
    (∃ s, channelRegistration.execute Any construct
        [.create 1 7, .perform 1 .disableAll] = some s ∧
      channelRegistration.Reachable Any s ∧ s.poller.interest 7 = some (1, 0) ∧
      ¬Unwatching s) ∧
    ∃ s, channelRegistration.execute Any construct
        [.create 1 7, .perform 1 .enableReading, .perform 1 .disableAll,
          .perform 1 .disableAll] = some s ∧
      channelRegistration.Reachable Any s ∧ s.poller.interest 7 = some (1, 0) ∧
      ¬Unwatching s :=
  ⟨watching_of_run (by decide +kernel), watching_of_run (by decide +kernel)⟩

end Interest

end ChannelRegistration

end TinyNetwork

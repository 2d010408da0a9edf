import TinyNetwork.EPollPoller
import TinyNetwork.MachineWord

/-! One `poll` of `net/EPollPoller.cc`: what `epoll_wait` reports is handed to the loop
as a list of channels, each with its `revents_` set. The count is an `int` kept in a
`size_t` and narrowed again for the loop over the events. Channels live in memory under
their addresses; a pointer to no channel ends in no step. -/
namespace TinyNetwork
open MachineWord

structure EpollEvent where
  events : EventMask
  ptr : ℕ

structure PollState where
  poller : EPollPoller
  events_ : List EpollEvent
  channel : ℕ → Option Channel

/-- What a call of `epoll_wait` leaves: its answer and the array, and the time after it. -/
structure EpollWait where
  numEvents : ℤ
  events : List EpollEvent
  now : ℤ

namespace EpollWait

def reported (w : EpollWait) : List EpollEvent := w.events.take w.numEvents.toNat

end EpollWait

namespace Channel

def set_revents (c : Channel) (revt : EventMask) : Channel := { c with revents_ := revt }

end Channel

namespace PollState

def fillFrom (events_ : List EpollEvent) :
    ℕ → ℕ → (ℕ → Option Channel) → List ℕ → Option ((ℕ → Option Channel) × List ℕ)
  | 0, _, channel, activeChannels => some (channel, activeChannels)
  | left + 1, i, channel, activeChannels =>
    events_[i]?.bind fun event =>
    (channel event.ptr).bind fun c =>
    fillFrom events_ left (i + 1)
      (Function.update channel event.ptr (some (c.set_revents event.events)))
      (activeChannels ++ [event.ptr])

def fillActiveChannels (s : PollState) (numEvents : ℤ) (activeChannels : List ℕ) :
    Option (PollState × List ℕ) :=
  (fillFrom s.events_ numEvents.toNat 0 s.channel activeChannels).map
    fun (channel, activeChannels) => ({ s with channel := channel }, activeChannels)

def grow (s : PollState) : PollState :=
  { s with events_ := s.events_ ++ List.replicate s.events_.length ⟨0, 0⟩ }

def poll (s : PollState) (w : EpollWait) (activeChannels : List ℕ) :
    Option (ℤ × PollState × List ℕ) :=
  let s := { s with events_ := w.events }
  let numEvents := widen w.numEvents
  if numEvents > 0 then
    (s.fillActiveChannels (narrow numEvents) activeChannels).map fun (s, activeChannels) =>
      (w.now, if numEvents = s.events_.length then s.grow else s, activeChannels)
  else
    -- a size is never negative: this is the time-out
    some (w.now, s, activeChannels)

def Registered (s : PollState) (ptr : ℕ) : Prop :=
  ∃ c, s.channel ptr = some c ∧ s.poller.channels_ c.fd_ = some ptr

structure Delivered (channel channel' : ℕ → Option Channel) (reported : List EpollEvent) :
    Prop where
  active : ∀ e ∈ reported, ∃ c, channel e.ptr = some c ∧
    channel' e.ptr = some (c.set_revents e.events)
  others : ∀ ptr, ptr ∉ reported.map EpollEvent.ptr → channel' ptr = channel ptr

theorem delivered_nil (channel : ℕ → Option Channel) : Delivered channel channel [] :=
  ⟨fun _ mem => absurd mem List.not_mem_nil, fun _ _ => rfl⟩

theorem delivered_cons {channel channel' : ℕ → Option Channel} {e : EpollEvent} {c : Channel}
    {rest : List EpollEvent} (found : channel e.ptr = some c)
    (new : e.ptr ∉ rest.map EpollEvent.ptr)
    (h : Delivered (Function.update channel e.ptr (some (c.set_revents e.events))) channel' rest) :
    Delivered channel channel' (e :: rest) := by
  constructor
  · intro e' mem
    rcases List.mem_cons.mp mem with rfl | later
    · refine ⟨c, found, ?_⟩
      rw [h.others e'.ptr new, Function.update_self]
    · obtain ⟨c', before, after_⟩ := h.active e' later
      have other : e'.ptr ≠ e.ptr := fun same => new (same ▸ List.mem_map_of_mem later)
      rw [Function.update_of_ne other] at before
      exact ⟨c', before, after_⟩
  · intro ptr absent
    rw [List.map_cons, List.mem_cons, not_or] at absent
    rw [h.others ptr absent.2, Function.update_of_ne absent.1]

theorem fillFrom_delivers {events_ reported : List EpollEvent} {i : ℕ}
    {channel : ℕ → Option Channel} (activeChannels : List ℕ)
    (there : reported <+: events_.drop i) (distinct : (reported.map EpollEvent.ptr).Nodup)
    (live : ∀ e ∈ reported, ∃ c, channel e.ptr = some c) :
    ∃ channel', fillFrom events_ reported.length i channel activeChannels =
        some (channel', activeChannels ++ reported.map EpollEvent.ptr) ∧
      Delivered channel channel' reported := by
  induction reported generalizing i channel activeChannels with
  | nil =>
    refine ⟨channel, ?_, delivered_nil channel⟩
    rw [List.map_nil, List.append_nil]
    rfl
  | cons e rest ih =>
    obtain ⟨c, found⟩ := live e List.mem_cons_self
    obtain ⟨new, distinct⟩ := List.nodup_cons.mp distinct
    obtain ⟨tail, split⟩ := there
    have here : events_[i]? = some e := by
      rw [← Nat.add_zero i, ← List.getElem?_drop, ← split]
      rfl
    have next : rest <+: events_.drop (i + 1) := by
      refine ⟨tail, ?_⟩
      rw [← List.drop_drop, ← split]
      rfl
    have still : ∀ e' ∈ rest, ∃ c', Function.update channel e.ptr
        (some (c.set_revents e.events)) e'.ptr = some c' := by
      intro e' mem
      have other : e'.ptr ≠ e.ptr := fun same => new (same ▸ List.mem_map_of_mem mem)
      rw [Function.update_of_ne other]
      exact live e' (List.mem_cons_of_mem e mem)
    obtain ⟨channel', filled, delivered⟩ := ih (activeChannels ++ [e.ptr]) next distinct still
    refine ⟨channel', ?_, delivered_cons found new delivered⟩
    rw [List.length_cons, fillFrom, here, Option.bind_some, found, Option.bind_some, filled,
      List.map_cons, List.append_assoc]
    rfl

/-- What the calls of `poll` hand over: `epoll_wait` may answer -1 or any number of events up
to the size of the array, and leaves any array. -/
structure Answered (s : PollState) (w : EpollWait) : Prop where
  some : 1 ≤ s.events_.length
  small : s.events_.length < 2 ^ 31
  low : -1 ≤ w.numEvents
  high : w.numEvents ≤ s.events_.length
  size : w.events.length = s.events_.length
  distinct : (w.reported.map EpollEvent.ptr).Nodup
  registered : ∀ e ∈ w.reported, s.Registered e.ptr

section Poll
variable {s : PollState} {w : EpollWait}

theorem reported_length (h : Answered s w) : w.reported.length = w.numEvents.toNat := by
  have high := h.high
  rw [EpollWait.reported, List.length_take, h.size]
  omega

/-- The count comes through the conversions as the number of turns of the loop. -/
theorem turns_eq (h : Answered s w) : (narrow (widen w.numEvents)).toNat = w.reported.length := by
  have small := h.small
  have low := h.low
  have high := h.high
  rw [narrow_widen (by omega) (by omega), reported_length h]

/-- The array is full exactly when the call says so: -1 is no size of an array. -/
theorem full_iff (h : Answered s w) :
    widen w.numEvents = w.events.length ↔ w.numEvents = s.events_.length := by
  have small := h.small
  have low := h.low
  have high := h.high
  rw [h.size]
  unfold widen
  omega

theorem widen_zero (h : Answered s w) (zero : ¬widen w.numEvents > 0) : w.numEvents = 0 := by
  have small := h.small
  have low := h.low
  have high := h.high
  unfold widen at zero
  omega

/-- `poll` hands over the reported channels in order with their masks, and nothing else; the
array doubles when it was full. -/
theorem poll_delivers (s : PollState) (w : EpollWait) (activeChannels : List ℕ)
    (h : Answered s w) :
    ∃ t, s.poll w activeChannels =
        some (w.now, t, activeChannels ++ w.reported.map EpollEvent.ptr) ∧
      w.reported.length = w.numEvents.toNat ∧ t.poller = s.poller ∧
      Delivered s.channel t.channel w.reported ∧
      t.events_.length =
        if w.numEvents = s.events_.length then 2 * s.events_.length else s.events_.length := by
  by_cases some_ : widen w.numEvents > 0
  · have there : w.reported <+: w.events.drop 0 := List.take_prefix _ _
    have live : ∀ e ∈ w.reported, ∃ c, s.channel e.ptr = some c := fun e mem =>
      (h.registered e mem).imp fun _ found => found.1
    obtain ⟨channel, filled, delivered⟩ := fillFrom_delivers activeChannels there h.distinct live
    have handed : fillActiveChannels { s with events_ := w.events } (narrow (widen w.numEvents))
        activeChannels = some ({ s with events_ := w.events, channel := channel },
          activeChannels ++ w.reported.map EpollEvent.ptr) := by
      rw [fillActiveChannels, turns_eq h, filled]
      rfl
    by_cases full : w.numEvents = s.events_.length
    · refine ⟨grow { s with events_ := w.events, channel := channel }, ?_, reported_length h, rfl,
        delivered, ?_⟩
      · rw [poll, if_pos some_, handed, Option.map_some]
        simp only [if_pos ((full_iff h).mpr full)]
      · rw [if_pos full, grow, List.length_append, List.length_replicate, h.size]
        exact (Nat.two_mul _).symm
    · refine ⟨{ s with events_ := w.events, channel := channel }, ?_, reported_length h, rfl,
        delivered, ?_⟩
      · rw [poll, if_pos some_, handed, Option.map_some]
        simp only [if_neg (mt (full_iff h).mp full)]
      · rw [if_neg full]
        exact h.size
  · have zero := widen_zero h some_
    have none : w.reported = [] := by
      rw [EpollWait.reported, zero]
      rfl
    refine ⟨{ s with events_ := w.events }, ?_, reported_length h, rfl, ?_, ?_⟩
    · rw [poll, if_neg some_, none, List.map_nil, List.append_nil]
    · rw [none]
      exact delivered_nil s.channel
    · have used := h.some
      rw [if_neg (by omega)]
      exact h.size

def sampleChannels : ℕ → Option Channel :=
  Function.update (Function.update (fun _ => none) 16 (some (Channel.construct 16 4))) 32
    (some (Channel.construct 32 5))

def sampleState : PollState where
  poller := { EPollPoller.construct with
    channels_ := fun fd => if fd = 4 then some 16 else if fd = 5 then some 32 else none }
  events_ := [⟨0, 0⟩, ⟨0, 0⟩]
  channel := sampleChannels

theorem poll_delivers_two :
    ∃ t, sampleState.poll ⟨2, [⟨EPOLLOUT, 32⟩, ⟨EPOLLIN, 16⟩], 7⟩ [] = some (7, t, [32, 16]) ∧
      t.events_.length = 4 := by
  have registered : ∀ e ∈ [⟨EPOLLOUT, 32⟩, (⟨EPOLLIN, 16⟩ : EpollEvent)],
      sampleState.Registered e.ptr := by
    intro e mem
    simp only [List.mem_cons, List.not_mem_nil, or_false] at mem
    rcases mem with rfl | rfl
    · exact ⟨Channel.construct 32 5, rfl, rfl⟩
    · exact ⟨Channel.construct 16 4, rfl, rfl⟩
  obtain ⟨t, polled, -, -, -, size⟩ := poll_delivers sampleState
    ⟨2, [⟨EPOLLOUT, 32⟩, ⟨EPOLLIN, 16⟩], 7⟩ []
    ⟨by decide, by decide, by decide, by decide, rfl, by decide, registered⟩
  exact ⟨t, polled, size⟩

end Poll

end PollState
end TinyNetwork

import Mathlib.Data.Int.Notation
import Mathlib.Logic.Function.Basic
import Mathlib.Tactic.Common

/-! A channel and the poller it registers with: `net/Channel.h`, `net/Channel.cc` and
`net/EPollPoller.cc`. Interest and event masks are the 32-bit masks of epoll. The
kernel's interest list behind `epollfd_` is part of the state, and `epoll_ctl`
refuses what the kernel refuses: adding a watched descriptor, changing or
removing one that is not watched. -/
namespace TinyNetwork

abbrev EventMask := BitVec 32

def EPOLLIN : EventMask := 0x001
def EPOLLPRI : EventMask := 0x002
def EPOLLOUT : EventMask := 0x004
def EPOLLHUP : EventMask := 0x010

inductive Index where
  | kNew
  | kAdded
  | kDeleted
  deriving DecidableEq

/-- `address` is the channel's own `this`, the pointer the poller stores. -/
structure Channel where
  address : ℕ
  fd_ : ℤ
  events_ : EventMask
  revents_ : EventMask
  index_ : Index
  tied_ : Bool

inductive Operation where
  | EPOLL_CTL_ADD
  | EPOLL_CTL_MOD
  | EPOLL_CTL_DEL
  deriving DecidableEq

/-- A call of `epoll_ctl`; `watched` says whether the descriptor was in the interest list
when the call was made. -/
structure CtlCall where
  operation : Operation
  fd : ℤ
  watched : Bool
  deriving DecidableEq

/-- A descriptor is added only when absent, changed and removed only when present. -/
def CtlCall.Legal (k : CtlCall) : Prop :=
  match k.operation with
  | .EPOLL_CTL_ADD => k.watched = false
  | .EPOLL_CTL_MOD => k.watched = true
  | .EPOLL_CTL_DEL => k.watched = true

/-- `issued` are the calls of `epoll_ctl` that `update` has made. -/
structure EPollPoller where
  channels_ : ℤ → Option ℕ
  interest : ℤ → Option (ℕ × EventMask)
  issued : List CtlCall

namespace Channel

def kNoneEvent : EventMask := 0
def kReadEvent : EventMask := EPOLLIN ||| EPOLLPRI
def kWriteEvent : EventMask := EPOLLOUT

def construct (address : ℕ) (fd : ℤ) : Channel := ⟨address, fd, 0, 0, .kNew, false⟩

def isNoneEvent (c : Channel) : Bool := c.events_ == kNoneEvent

def isWriting (c : Channel) : Bool := c.events_ &&& kWriteEvent != 0

end Channel

namespace EPollPoller

protected def construct : EPollPoller := ⟨fun _ => none, fun _ => none, []⟩

def watches (p : EPollPoller) (fd : ℤ) : Bool := (p.interest fd).isSome

/-- `::epoll_ctl`; `none` is a refusal. -/
def epoll_ctl (p : EPollPoller) (operation : Operation) (fd : ℤ) (event : ℕ × EventMask) :
    Option EPollPoller :=
  match operation, p.interest fd with
  | .EPOLL_CTL_ADD, none => some { p with interest := Function.update p.interest fd (some event) }
  | .EPOLL_CTL_MOD, some _ =>
    some { p with interest := Function.update p.interest fd (some event) }
  | .EPOLL_CTL_DEL, some _ => some { p with interest := Function.update p.interest fd none }
  | _, _ => none

/-- A refused `epoll_ctl` is logged and otherwise ignored: the logger's constructor stores
`INFO` as the level of a `LOG_FATAL`, so its destructor does not abort. -/
def update (p : EPollPoller) (operation : Operation) (c : Channel) : EPollPoller :=
  { (p.epoll_ctl operation c.fd_ (c.address, c.events_)).getD p with
    issued := p.issued ++ [⟨operation, c.fd_, p.watches c.fd_⟩] }

def updateChannel (p : EPollPoller) (c : Channel) : EPollPoller × Channel :=
  match c.index_ with
  | .kNew =>
    let c := { c with index_ := .kAdded }
    ({ p with channels_ := Function.update p.channels_ c.fd_ (some c.address) }.update
      .EPOLL_CTL_ADD c, c)
  | .kDeleted =>
    let c := { c with index_ := .kAdded }
    (p.update .EPOLL_CTL_ADD c, c)
  | .kAdded =>
    if c.isNoneEvent then (p.update .EPOLL_CTL_DEL c, { c with index_ := .kDeleted })
    else (p.update .EPOLL_CTL_MOD c, c)

def removeChannel (p : EPollPoller) (c : Channel) : EPollPoller × Channel :=
  let p := { p with channels_ := Function.update p.channels_ c.fd_ none }
  (if c.index_ = .kAdded then p.update .EPOLL_CTL_DEL c else p, { c with index_ := .kNew })

def enableReading (p : EPollPoller) (c : Channel) : EPollPoller × Channel :=
  p.updateChannel { c with events_ := c.events_ ||| Channel.kReadEvent }

def disableReading (p : EPollPoller) (c : Channel) : EPollPoller × Channel :=
  p.updateChannel { c with events_ := c.events_ &&& ~~~Channel.kReadEvent }

def enableWriting (p : EPollPoller) (c : Channel) : EPollPoller × Channel :=
  p.updateChannel { c with events_ := c.events_ ||| Channel.kWriteEvent }

def disableWriting (p : EPollPoller) (c : Channel) : EPollPoller × Channel :=
  p.updateChannel { c with events_ := c.events_ &&& ~~~Channel.kWriteEvent }

def disableAll (p : EPollPoller) (c : Channel) : EPollPoller × Channel :=
  p.updateChannel { c with events_ := c.events_ &&& Channel.kNoneEvent }

section Fields
variable (p : EPollPoller) (c : Channel)

theorem updateChannel_channel :
    (p.updateChannel c).2 = { c with index_ := (p.updateChannel c).2.index_ } := by
  cases c with
  | mk address fd events revents index tied =>
    cases index with
    | kNew => rfl
    | kDeleted => rfl
    | kAdded =>
      simp only [updateChannel]
      split_ifs <;> rfl

@[simp] theorem updateChannel_events : (p.updateChannel c).2.events_ = c.events_ := by
  rw [updateChannel_channel]

@[simp] theorem enableReading_events :
    (p.enableReading c).2.events_ = c.events_ ||| Channel.kReadEvent := updateChannel_events _ _

@[simp] theorem enableWriting_events :
    (p.enableWriting c).2.events_ = c.events_ ||| Channel.kWriteEvent := updateChannel_events _ _

@[simp] theorem disableWriting_events :
    (p.disableWriting c).2.events_ = c.events_ &&& ~~~Channel.kWriteEvent :=
  updateChannel_events _ _

@[simp] theorem disableAll_events : (p.disableAll c).2.events_ = 0 := by
  rw [disableAll, updateChannel_events]
  exact BitVec.and_zero

end Fields

section Masks

theorem or_and_cancel (events mask : EventMask) : (events ||| mask) &&& mask = mask := by
  ext i hi
  rw [BitVec.getElem_and, BitVec.getElem_or]
  cases mask[i]
  · exact Bool.and_false _
  · rw [Bool.or_true, Bool.and_true]

theorem and_not_and_cancel (events mask : EventMask) : events &&& ~~~mask &&& mask = 0 := by
  ext i hi
  simp

theorem or_and_disjoint {mask other : EventMask} (h : other &&& mask = 0) (events : EventMask) :
    (events ||| other) &&& mask = events &&& mask := by
  rw [BitVec.and_or_distrib_right, h]
  exact BitVec.or_zero

theorem and_not_and_disjoint {mask other : EventMask} (h : other &&& mask = 0)
    (events : EventMask) : events &&& ~~~other &&& mask = events &&& mask := by
  have kept : ~~~other &&& mask = mask := by
    calc ~~~other &&& mask = (~~~other &&& mask) ||| (other &&& mask) := by
          rw [h]
          exact BitVec.or_zero.symm
      _ = (~~~other ||| other) &&& mask := BitVec.and_or_distrib_right.symm
      _ = mask := by rw [BitVec.not_or_self, BitVec.allOnes_and]
  rw [BitVec.and_assoc, kept]

end Masks

@[simp] theorem enableWriting_isWriting (p : EPollPoller) (c : Channel) :
    (p.enableWriting c).2.isWriting = true := by
  rw [Channel.isWriting, enableWriting_events, or_and_cancel]
  decide

@[simp] theorem disableWriting_isWriting (p : EPollPoller) (c : Channel) :
    (p.disableWriting c).2.isWriting = false := by
  rw [Channel.isWriting, disableWriting_events, and_not_and_cancel]
  decide

@[simp] theorem enableReading_isWriting (p : EPollPoller) (c : Channel) :
    (p.enableReading c).2.isWriting = c.isWriting := by
  rw [Channel.isWriting, enableReading_events, or_and_disjoint (by decide)]
  rfl

structure Watched (p : EPollPoller) (c : Channel) : Prop where
  added : c.index_ = .kAdded
  reading : c.events_ &&& Channel.kReadEvent = Channel.kReadEvent
  watched : p.watches c.fd_ = true

structure Unwatched (p : EPollPoller) (c : Channel) : Prop where
  notAdded : c.index_ ≠ .kAdded
  silent : c.events_ = 0
  unwatched : p.watches c.fd_ = false

theorem interested {events : EventMask}
    (h : events &&& Channel.kReadEvent = Channel.kReadEvent) :
    (events == Channel.kNoneEvent) = false := by
  rw [beq_eq_false_iff_ne]
  rintro rfl
  revert h
  decide

theorem updateChannel_watched {p : EPollPoller} {c : Channel} (h : Watched p c) :
    Watched (p.updateChannel c).1 (p.updateChannel c).2 := by
  obtain ⟨event, present⟩ := Option.isSome_iff_exists.mp h.watched
  have shape : p.updateChannel c = (p.update .EPOLL_CTL_MOD c, c) := by
    simp [updateChannel, h.added, Channel.isNoneEvent, interested h.reading]
  rw [shape]
  refine ⟨h.added, h.reading, ?_⟩
  simp [update, epoll_ctl, present, watches]

theorem enableWriting_watched {p : EPollPoller} {c : Channel} (h : Watched p c) :
    Watched (p.enableWriting c).1 (p.enableWriting c).2 := by
  refine updateChannel_watched ⟨h.added, ?_, h.watched⟩
  rw [or_and_disjoint (by decide)]
  exact h.reading

theorem disableWriting_watched {p : EPollPoller} {c : Channel} (h : Watched p c) :
    Watched (p.disableWriting c).1 (p.disableWriting c).2 := by
  refine updateChannel_watched ⟨h.added, ?_, h.watched⟩
  rw [and_not_and_disjoint (by decide)]
  exact h.reading

theorem enableReading_watched {p : EPollPoller} {c : Channel} (hi : c.index_ = .kNew)
    (h : p.watches c.fd_ = false) : Watched (p.enableReading c).1 (p.enableReading c).2 := by
  have absent : p.interest c.fd_ = none := by simpa [watches] using h
  refine ⟨?_, ?_, ?_⟩
  · simp [enableReading, updateChannel, hi]
  · rw [enableReading_events]
    exact or_and_cancel _ _
  · simp [enableReading, updateChannel, hi, update, epoll_ctl, absent, watches]

theorem disableAll_unwatched {p : EPollPoller} {c : Channel} (h : Watched p c) :
    Unwatched (p.disableAll c).1 (p.disableAll c).2 := by
  obtain ⟨event, present⟩ := Option.isSome_iff_exists.mp h.watched
  have none : c.events_ &&& Channel.kNoneEvent = Channel.kNoneEvent := BitVec.and_zero
  refine ⟨?_, disableAll_events p c, ?_⟩
  · simp [disableAll, updateChannel, h.added, Channel.isNoneEvent, none]
  · simp [disableAll, updateChannel, h.added, Channel.isNoneEvent, none, update, epoll_ctl,
      present, watches]

theorem removeChannel_unwatched {p : EPollPoller} {c : Channel} (h : Unwatched p c) :
    Unwatched (p.removeChannel c).1 (p.removeChannel c).2 := by
  refine ⟨by simp [removeChannel], h.silent, ?_⟩
  have kept := h.unwatched
  simpa [removeChannel, h.notAdded, watches] using kept

end EPollPoller

end TinyNetwork

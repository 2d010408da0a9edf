import TinyNetwork.Buffer
import TinyNetwork.EPollPoller

/-! One connection of `net/TcpConnection.h` and `net/TcpConnection.cc`, with the part
of its loop it talks to: the poller and the functors it queues. Everything the
connection does to the outside is recorded in order in `trace`: writes with the
bytes the kernel took, the half-close, and the calls of the user's callbacks.
Kernel answers and the actions of user code inside a callback are inputs. A step
is `none` when growing a buffer throws. -/
namespace TinyNetwork
open MachineWord

inductive StateE where
  | kDisconnected
  | kConnecting
  | kConnected
  | kDisconnecting
  deriving DecidableEq

def EWOULDBLOCK : ℤ := 11
def EPIPE : ℤ := 32
def ECONNRESET : ℤ := 104

inductive WriteResult where
  | wrote (n : ℕ)
  | failed (errno : ℤ)

inductive Functor where
  | sendInLoop (message : List Byte)
  | shutdownInLoop
  | writeCompleteCallback
  | highWaterMarkCallback (size : ℕ)
  deriving DecidableEq

/-- `connection connected` is a call of `connectionCallback_` together with what
`connected()` answers during it. -/
inductive Event where
  | write (bytes : List Byte)
  | shutdownWrite
  | connection (connected : Bool)
  | message
  | close
  deriving DecidableEq

inductive UserAction where
  | send (data : List Byte) (answer : WriteResult)
  | shutdown

/-- `writeCompleteCallback_` and `highWaterMarkCallback_` say whether one is set, and
`pendingFunctors_` is the connection's part of the loop's queue. -/
structure TcpConnection where
  state_ : StateE
  channel_ : Channel
  poller_ : EPollPoller
  inputBuffer_ : Buffer
  outputBuffer_ : Buffer
  highWaterMark_ : ℕ
  writeCompleteCallback_ : Bool
  highWaterMarkCallback_ : Bool
  pendingFunctors_ : List Functor
  trace : List Event

namespace TcpConnection

def construct (address : ℕ) (sockfd : ℤ) (poller : EPollPoller)
    (writeComplete highWater : Bool) (highWaterMark : ℕ) : TcpConnection where
  state_ := .kConnecting
  channel_ := Channel.construct address sockfd
  poller_ := poller
  inputBuffer_ := Buffer.fresh
  outputBuffer_ := Buffer.fresh
  highWaterMark_ := highWaterMark
  writeCompleteCallback_ := writeComplete
  highWaterMarkCallback_ := highWater
  pendingFunctors_ := []
  trace := []

def connected (c : TcpConnection) : Bool := c.state_ == .kConnected

def record (c : TcpConnection) (e : Event) : TcpConnection := { c with trace := c.trace ++ [e] }

def queueInLoop (c : TcpConnection) (f : Functor) : TcpConnection :=
  { c with pendingFunctors_ := c.pendingFunctors_ ++ [f] }

def setState (c : TcpConnection) (s : StateE) : TcpConnection := { c with state_ := s }

def setChannel (c : TcpConnection) (r : EPollPoller × Channel) : TcpConnection :=
  { c with poller_ := r.1, channel_ := r.2 }

def write (c : TcpConnection) (data : List Byte) : WriteResult → TcpConnection
  | .wrote n => c.record (.write (data.take n))
  | .failed _ => c.record (.write [])

def noteWriteComplete (c : TcpConnection) : TcpConnection :=
  if c.writeCompleteCallback_ then c.queueInLoop .writeCompleteCallback else c

def noteHighWaterMark (c : TcpConnection) (remaining : ℕ) : TcpConnection :=
  let oldLen := c.outputBuffer_.readableBytes
  if c.highWaterMark_ ≤ sizeAdd oldLen remaining ∧ oldLen < c.highWaterMark_ ∧
      c.highWaterMarkCallback_ = true then
    c.queueInLoop (.highWaterMarkCallback (sizeAdd oldLen remaining))
  else c

def sendRest (c : TcpConnection) (data : List Byte) (nwrote remaining : ℕ) :
    Option TcpConnection :=
  if 0 < remaining then
    let c := c.noteHighWaterMark remaining
    (c.outputBuffer_.append ((data.drop nwrote).take remaining)).map fun b =>
      let c := { c with outputBuffer_ := b }
      if c.channel_.isWriting then c else c.setChannel (c.poller_.enableWriting c.channel_)
  else some c

/-- Only `EPIPE` and `ECONNRESET` set `faultError`; any other failure of the direct
write queues the whole message. -/
def sendInLoop (c : TcpConnection) (data : List Byte) (answer : WriteResult) :
    Option TcpConnection :=
  if c.state_ = .kDisconnected then some c
  else if c.channel_.isWriting = false ∧ c.outputBuffer_.readableBytes = 0 then
    let c := c.write data answer
    match answer with
    | .wrote nwrote =>
      let remaining := sizeSub data.length nwrote
      let c := if remaining = 0 then c.noteWriteComplete else c
      c.sendRest data nwrote remaining
    | .failed errno =>
      if errno ≠ EWOULDBLOCK ∧ (errno = EPIPE ∨ errno = ECONNRESET) then some c
      else c.sendRest data 0 data.length
  else c.sendRest data 0 data.length

def shutdownInLoop (c : TcpConnection) : TcpConnection :=
  if c.channel_.isWriting then c else c.record .shutdownWrite

/-- Both overloads of `send`, as far as the bytes reach `sendInLoop` unchanged. -/
def send (c : TcpConnection) (inLoopThread : Bool) (data : List Byte) (answer : WriteResult) :
    Option TcpConnection :=
  if c.state_ = .kConnected then
    if inLoopThread then c.sendInLoop data answer else some (c.queueInLoop (.sendInLoop data))
  else some c

def shutdown (c : TcpConnection) (inLoopThread : Bool) : TcpConnection :=
  if c.state_ = .kConnected then
    let c := c.setState .kDisconnecting
    if inLoopThread then c.shutdownInLoop else c.queueInLoop .shutdownInLoop
  else c

def runUser (c : TcpConnection) : List UserAction → Option TcpConnection
  | [] => some c
  | .send data answer :: rest => (c.send true data answer).bind fun c => c.runUser rest
  | .shutdown :: rest => (c.shutdown true).runUser rest

def runFunctor (c : TcpConnection) (answer : WriteResult) (user : List UserAction) :
    Functor → Option TcpConnection
  | .sendInLoop message => c.sendInLoop message answer
  | .shutdownInLoop => some c.shutdownInLoop
  | .writeCompleteCallback => c.runUser user
  | .highWaterMarkCallback _ => c.runUser user

def connectionCallback (c : TcpConnection) (user : List UserAction) : Option TcpConnection :=
  (c.record (.connection c.connected)).runUser user

def connectEstablished (c : TcpConnection) (user : List UserAction) : Option TcpConnection :=
  let c := c.setState .kConnected
  let c := { c with channel_ := { c.channel_ with tied_ := true } }
  let c := c.setChannel (c.poller_.enableReading c.channel_)
  c.connectionCallback user

def connectDestroyed (c : TcpConnection) (user : List UserAction) : Option TcpConnection :=
  (if c.state_ = .kConnected then
    let c := c.setState .kDisconnected
    let c := c.setChannel (c.poller_.disableAll c.channel_)
    c.connectionCallback user
  else some c).map fun c => c.setChannel (c.poller_.removeChannel c.channel_)

def handleClose (c : TcpConnection) (user : List UserAction) : Option TcpConnection :=
  let c := c.setState .kDisconnected
  let c := c.setChannel (c.poller_.disableAll c.channel_)
  (c.connectionCallback user).map fun c => c.record .close

def handleWrite (c : TcpConnection) (answer : WriteResult) : TcpConnection :=
  if c.channel_.isWriting then
    let c := c.write c.outputBuffer_.readable answer
    match answer with
    | .wrote n =>
      if 0 < n then
        let c := { c with outputBuffer_ := c.outputBuffer_.retrieve n }
        if c.outputBuffer_.readableBytes = 0 then
          let c := (c.setChannel (c.poller_.disableWriting c.channel_)).noteWriteComplete
          if c.state_ = .kDisconnecting then c.shutdownInLoop else c
        else c
      else c
    | .failed _ => c
  else c

structure Incoming where
  read : Buffer.ReadResult
  write : WriteResult
  onMessage : List UserAction
  onDown : List UserAction

/-- The error branch calls `handleError`, which reads `SO_ERROR` and logs. -/
def handleRead (c : TcpConnection) (io : Incoming) : Option TcpConnection :=
  (c.inputBuffer_.readFd 0 io.read).bind fun (b, n, _) =>
    let c := { c with inputBuffer_ := b }
    if 0 < n then (c.record .message).runUser io.onMessage
    else if n = 0 then c.handleClose io.onDown
    else some c

def handleEventWithGuard (c : TcpConnection) (io : Incoming) : Option TcpConnection :=
  let revents := c.channel_.revents_
  (if revents &&& EPOLLHUP ≠ 0 ∧ revents &&& EPOLLIN = 0 then c.handleClose io.onDown
    else some c).bind fun c =>
  (if revents &&& (EPOLLIN ||| EPOLLPRI) ≠ 0 then c.handleRead io else some c).bind fun c =>
  some (if revents &&& EPOLLOUT ≠ 0 then c.handleWrite io.write else c)

/-- The poller's `set_revents` and `Channel::handleEvent`. The weak pointer `tie_`
locks because the connection is alive, so a tied and an untied channel run the
same body. -/
def handleEvent (c : TcpConnection) (revents : EventMask) (io : Incoming) :
    Option TcpConnection :=
  { c with channel_ := { c.channel_ with revents_ := revents } }.handleEventWithGuard io

end TcpConnection

end TinyNetwork

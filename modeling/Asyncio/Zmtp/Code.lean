import Asyncio.Wire.Bytes
import Asyncio.Wire.Transport
import Asyncio.Xmstream

/-!
# ZMTP frames

A ZMTP message is a sequence of frames, all but the last with the flag `MORE`. A frame is a byte of
flags, its size in one byte or, with the flag `LONG`, in eight, and its data. A REQ or REP socket puts
an empty frame before each message.

Sending and receiving are written twice. `implZmtpSend` and `implZmtpRecvStream` work inline, as long
as nothing blocks; then they hand their state over to an operation, which `startZmtpSend` or
`startZmtpRecv` continues. An operation that is queued from the start begins at `stInitialize`.

Of the socket only what these functions use is modelled, and of the operation the part with a stream.
The memory of a stream is always there: one whose memory was captured is left out. Sizes are `size_t`,
that is `UInt64`.
-/

namespace Asyncio

namespace Zmtp

open Wire

/-! ### Types -/

/-- `zmtpSocketTy` -/
inductive SocketTy
  | req | rep | dealer | router | pub | xpub | sub | xsub | push | pull | pair
  deriving DecidableEq

/-- `zmtpUserMsgTy`, without the value that stands for none. -/
inductive UserMsgTy
  | message | messagePart | command
  deriving DecidableEq

/-- `zmtpMsgTy`: the flags of a frame. -/
abbrev MsgTy := UInt8

def msgFlagNone : MsgTy := 0
def msgFlagMore : MsgTy := 1
def msgFlagLong : MsgTy := 2
def msgFlagCommand : MsgTy := 4

/-- `type & flag` -/
def MsgTy.has (type flag : MsgTy) : Bool := type &&& flag != 0

/-- `zmtpMsgTypeFor` -/
def zmtpMsgTypeFor (userType : UserMsgTy) (size : UInt64) : MsgTy :=
  match userType with
  | .command => if size < 256 then msgFlagCommand else msgFlagCommand ||| msgFlagLong
  | .messagePart => if size < 256 then msgFlagMore else msgFlagMore ||| msgFlagLong
  | .message => if size < 256 then msgFlagNone else msgFlagLong

/-! ### Receiving -/

/-- `AsyncOpStatus`, as far as a receive can end with it. -/
inductive Status
  | success | bufferTooSmall
  deriving DecidableEq

/-- How a receive ends; `rest` is what is left in the transport. -/
inductive Outcome
  /-- The stream ends before the message does. -/
  | waiting
  | failed (status : Status) (rest : List UInt8)
  | received (payload : List UInt8) (type : UserMsgTy) (transferred : UInt64) (rest : List UInt8)
  deriving DecidableEq

/-- `zmtpOpState`, as far as a receive goes through it. -/
inductive RecvState
  | stInitialize | stRecvReadType | stRecvReadSize | stRecvReadData | stFinished
  deriving DecidableEq

/-- `zmtpOp` of a receive, with the buffer of the socket, the stream and the transport. -/
structure RecvOp where
  stateRw : RecvState
  type : MsgTy
  /-- The limit. -/
  size : UInt64
  transferred : UInt64
  recvBuffer : Memory
  stream : List UInt8
  source : Source UInt8

/-- `zmtpFrameLength` -/
def zmtpFrameLength (recvBuffer : Memory) (type : MsgTy) : UInt64 :=
  if !type.has msgFlagLong then (recvBuffer 1).toUInt64
  else .ofNat (ofBE (slice recvBuffer 1 8))

/-- The type that `recvFinish` reports. -/
def recvType (type : MsgTy) : UserMsgTy :=
  if type.has msgFlagCommand then .command else .message

/-- One turn of the loop of `startZmtpRecv`. -/
def startZmtpRecv (op : RecvOp) : Turn RecvOp Outcome :=
  match op.stateRw with
  | .stInitialize => .next { op with stateRw := .stRecvReadType, transferred := 0, stream := [] }
  | .stRecvReadType =>
    op.source.turn 2 .waiting fun bytes rest =>
      { op with
        stateRw := .stRecvReadSize
        recvBuffer := fill op.recvBuffer 0 bytes
        source := rest }
  | .stRecvReadSize =>
    let op := { op with stateRw := .stRecvReadData, type := op.recvBuffer 0 }
    if op.type.has msgFlagLong then
      op.source.turn 7 .waiting fun bytes rest =>
        { op with recvBuffer := fill op.recvBuffer 2 bytes, source := rest }
    else .next op
  | .stRecvReadData =>
    let op := { op with stateRw := if op.type.has msgFlagMore then .stRecvReadType else .stFinished }
    let frameSize := zmtpFrameLength op.recvBuffer op.type
    if frameSize > op.size - op.transferred then .done (.failed .bufferTooSmall op.source.input)
    else if !reserve op.stream frameSize then .done (.failed .bufferTooSmall op.source.input)
    else
      op.source.turn frameSize.toNat .waiting fun bytes rest =>
        { op with
          transferred := op.transferred + frameSize
          stream := op.stream ++ bytes
          source := rest }
  | .stFinished => .done (.received op.stream (recvType op.type) op.transferred op.source.input)

/-- The local variables of `implZmtpRecvStream`, with what is outside. -/
structure RecvLocals where
  type : MsgTy
  transferred : UInt64
  recvBuffer : Memory
  msg : List UInt8
  source : Source UInt8

/-- The operation that `implZmtpRecvStream` leaves behind. -/
def RecvLocals.handOver (limit : UInt64) (state : RecvState) (l : RecvLocals) : RecvOp where
  stateRw := state
  type := l.type
  size := limit
  transferred := l.transferred
  recvBuffer := l.recvBuffer
  stream := l.msg
  source := l.source

/-- The rest of a turn of `implZmtpRecvStream`, once the header of the frame was read. -/
def implZmtpRecvFrame (limit : UInt64) (l : RecvLocals) : Turn (RecvLocals ⊕ RecvOp) Outcome :=
  let frameSize := zmtpFrameLength l.recvBuffer l.type
  if frameSize ≤ limit - l.transferred then
    if !reserve l.msg frameSize then .done (.failed .bufferTooSmall l.source.input)
    else
      let l := { l with transferred := l.transferred + frameSize }
      match l.source.read frameSize.toNat with
      | .starved => .done .waiting
      | .parked bytes rest =>
        .park (.inr ({ l with msg := l.msg ++ bytes, source := rest }.handOver limit
          (if l.type.has msgFlagMore then .stRecvReadType else .stFinished)))
      | .inline bytes rest =>
        let l := { l with msg := l.msg ++ bytes, source := rest }
        if l.type.has msgFlagMore then .next (.inl l)
        else .done (.received l.msg (recvType l.type) l.transferred l.source.input)
  else .done (.failed .bufferTooSmall l.source.input)

/-- A turn of `implZmtpRecvStream` from where the flags were read. -/
def implZmtpRecvSize (limit : UInt64) (l : RecvLocals) : Turn (RecvLocals ⊕ RecvOp) Outcome :=
  let l := { l with type := l.recvBuffer 0 }
  if l.type.has msgFlagLong then
    match l.source.read 7 with
    | .starved => .done .waiting
    | .parked bytes rest =>
      .park (.inr ({ l with recvBuffer := fill l.recvBuffer 2 bytes, source := rest }.handOver
        limit .stRecvReadData))
    | .inline bytes rest =>
      implZmtpRecvFrame limit { l with recvBuffer := fill l.recvBuffer 2 bytes, source := rest }
  else implZmtpRecvFrame limit l

/-- One turn of the loop of `implZmtpRecvStream`. -/
def implZmtpRecvTurn (limit : UInt64) (l : RecvLocals) : Turn (RecvLocals ⊕ RecvOp) Outcome :=
  match l.source.read 2 with
  | .starved => .done .waiting
  | .parked bytes rest =>
    .park (.inr ({ l with recvBuffer := fill l.recvBuffer 0 bytes, source := rest }.handOver
      limit .stRecvReadSize))
  | .inline bytes rest =>
    implZmtpRecvSize limit { l with recvBuffer := fill l.recvBuffer 0 bytes, source := rest }

/-- `implZmtpRecvStream`, and the operation it leaves behind. -/
def implZmtpRecvStream (limit : UInt64) : RecvLocals ⊕ RecvOp → Turn (RecvLocals ⊕ RecvOp) Outcome
  | .inl l => implZmtpRecvTurn limit l
  | .inr op => (startZmtpRecv op).map .inr

/-- A receive that is queued: `aioZmtpRecv` while another one is under way. -/
def queuedRecv (limit : UInt64) (recvBuffer : Memory) (stream : List UInt8) (source : Source UInt8) :
    RecvOp where
  stateRw := .stInitialize
  type := msgFlagNone
  size := limit
  transferred := 0
  recvBuffer := recvBuffer
  stream := stream
  source := source

/-- A receive that is attempted at once, after `msg.reset()`. -/
def inlineRecv (recvBuffer : Memory) (source : Source UInt8) : RecvLocals where
  type := msgFlagNone
  transferred := 0
  recvBuffer := recvBuffer
  msg := []
  source := source

/-! ### Sending -/

/-- The part of `zmtpSocket` that sends, and its transport. -/
structure Sender where
  type : SocketTy
  needSendMore : Bool
  sendBuffer : Memory
  sink : Sink UInt8

/-- `sizeof(socket->sendBuffer)` -/
def sendBufferSize : ℕ := 256

/-- `zmtpBuildSendHeader`; answers the number of header bytes. -/
def zmtpBuildSendHeader (socket : Sender) (msgType : MsgTy) (size : UInt64) : ℕ × Sender :=
  let (offset, sendBuffer) :=
    if !msgType.has msgFlagCommand && (socket.type = .req || socket.type = .rep)
        && !socket.needSendMore then
      (2, fill socket.sendBuffer 0 [msgFlagMore, 0])
    else (0, socket.sendBuffer)
  let socket := { socket with needSendMore := msgType.has msgFlagMore }
  if !msgType.has msgFlagLong then
    (offset + 2, { socket with sendBuffer := fill sendBuffer offset [msgType, size.toUInt8] })
  else
    (offset + 9, { socket with
      sendBuffer := fill (fill sendBuffer offset [msgType]) (offset + 1) (toBE 8 size.toNat) })

/-- `zmtpOpState`, as far as a send goes through it. -/
inductive SendState
  | stInitialize | stWriteData | stFinished
  deriving DecidableEq

/-- `zmtpOp` of a send, with the socket. -/
structure SendOp where
  stateRw : SendState
  type : MsgTy
  data : List UInt8
  socket : Sender

/-- `op->size` -/
def SendOp.size (op : SendOp) : UInt64 := .ofNat op.data.length

/-- One turn of the loop of `startZmtpSend`; a send leaves the socket as its result. -/
def startZmtpSend (op : SendOp) : Turn SendOp Sender :=
  match op.stateRw with
  | .stInitialize =>
    let (offset, socket) := zmtpBuildSendHeader op.socket op.type op.size
    if op.size.toNat ≤ sendBufferSize - offset then
      let socket := { socket with sendBuffer := fill socket.sendBuffer offset op.data }
      socket.sink.turn (slice socket.sendBuffer 0 (op.size.toNat + offset)) fun sink =>
        { op with stateRw := .stFinished, socket := { socket with sink := sink } }
    else
      socket.sink.turn (slice socket.sendBuffer 0 offset) fun sink =>
        { op with stateRw := .stWriteData, socket := { socket with sink := sink } }
  | .stWriteData =>
    op.socket.sink.turn op.data fun sink =>
      { op with stateRw := .stFinished, socket := { op.socket with sink := sink } }
  | .stFinished => .done op.socket

/-- `implZmtpSend`, up to where it returns; what it leaves behind is an operation. -/
def implZmtpSendNow (type : UserMsgTy) (data : List UInt8) (socket : Sender) :
    Turn (Sender ⊕ SendOp) Sender :=
  let size : UInt64 := .ofNat data.length
  let msgType := zmtpMsgTypeFor type size
  let (offset, socket) := zmtpBuildSendHeader socket msgType size
  let leave (state : SendState) (socket : Sender) : Turn (Sender ⊕ SendOp) Sender :=
    .park (.inr ⟨state, msgType, data, socket⟩)
  if size.toNat ≤ sendBufferSize - offset then
    let socket := { socket with sendBuffer := fill socket.sendBuffer offset data }
    match socket.sink.write (slice socket.sendBuffer 0 (size.toNat + offset)) with
    | .inline sink => .done { socket with sink := sink }
    | .parked sink rest => leave .stFinished { socket with sink := sink.finish rest }
  else
    match socket.sink.write (slice socket.sendBuffer 0 offset) with
    | .parked sink rest => leave .stWriteData { socket with sink := sink.finish rest }
    | .inline sink =>
      match sink.write data with
      | .inline sink => .done { socket with sink := sink }
      | .parked sink rest => leave .stFinished { socket with sink := sink.finish rest }

/-- `implZmtpSend`, and the operation it leaves behind. -/
def implZmtpSend (type : UserMsgTy) (data : List UInt8) :
    Sender ⊕ SendOp → Turn (Sender ⊕ SendOp) Sender
  | .inl socket => implZmtpSendNow type data socket
  | .inr op => (startZmtpSend op).map .inr

/-- A send that is queued: `aioZmtpSend` while another one is under way. -/
def queuedSend (type : UserMsgTy) (data : List UInt8) (socket : Sender) : SendOp where
  stateRw := .stInitialize
  type := zmtpMsgTypeFor type (.ofNat data.length)
  data := data
  socket := socket

end Zmtp

end Asyncio

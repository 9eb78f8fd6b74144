import Asyncio.Wire.Bytes
import Asyncio.Wire.Transport
import Asyncio.Xmstream

/-!
# Bitcoin messages

A message is a header of 24 bytes, with a magic number, a command, and the length and checksum of the
payload, and the payload. All numbers are in little order. The command is a field of twelve bytes that
ends with its first NUL, if it has one.

As with ZMTP, `implBtcSend` and `implBtcRecv` work inline, as long as nothing blocks, and then leave an
operation behind, which `startBtcSend` or `startBtcRecv` continues. Both receivers read the header into
the buffer of the socket and decode it there, in the byte order of the host.

A receive that ends inline also reports the length of the payload; that is left out.
-/

namespace Asyncio

namespace Btc

open Wire

/-- What is fixed for a socket: the byte order of the host, the magic number, and the function that
`calculateCheckSum` computes. -/
structure Config where
  order : ByteOrder
  magic : UInt32
  calculateCheckSum : List UInt8 → UInt32

/-! ### The header -/

def xhtole (order : ByteOrder) (value : UInt32) : UInt32 :=
  if order = .big then swap value else value

def xletoh (order : ByteOrder) (value : UInt32) : UInt32 :=
  if order = .big then swap value else value

/-- `sizeof(MessageHeader)` -/
def headerSize : ℕ := 24

/-! The fields of a `MessageHeader` at the start of a buffer. -/

def magic (order : ByteOrder) (header : Memory) : UInt32 := load order header 0
def command (header : Memory) : List UInt8 := slice header 4 12
def length (order : ByteOrder) (header : Memory) : UInt32 := load order header 16
def checksum (order : ByteOrder) (header : Memory) : UInt32 := load order header 20

/-- `strnlen` -/
def strnlen (src : List UInt8) (n : ℕ) : ℕ := ((src.take n).takeWhile (· ≠ 0)).length

/-- `copyCommand`, into a field of twelve bytes; `src` is what may be read of the source. -/
def copyCommand (src : List UInt8) : List UInt8 :=
  src.take (strnlen src 12) ++ List.replicate (12 - strnlen src 12) 0

/-- `commandValid` -/
def commandValid (command : List UInt8) : Bool := (command.dropWhile (· ≠ 0)).all (· = 0)

/-- `buildMessageHeader` -/
def buildMessageHeader (cfg : Config) (out : Memory) (command data : List UInt8) (size : UInt32) :
    Memory :=
  let out := store cfg.order out 0 (xhtole cfg.order cfg.magic)
  let out := fill out 4 (copyCommand command)
  let out := store cfg.order out 16 (xhtole cfg.order size)
  store cfg.order out 20 (xhtole cfg.order (cfg.calculateCheckSum data))

/-- `decodeMessageHeader` -/
def decodeMessageHeader (order : ByteOrder) (header : Memory) : Memory :=
  let header := store order header 0 (xletoh order (magic order header))
  let header := store order header 16 (xletoh order (length order header))
  store order header 20 (xletoh order (checksum order header))

/-- `btcOpState` -/
inductive OpState
  | stInitialize | stReadData | stWriteData | stFinished
  deriving DecidableEq

/-- `AsyncOpStatus` with the codes of `btcMakeStatus`, as far as an operation can end with it. -/
inductive Status
  | success | bufferTooSmall | unknownError | invalidMagic | invalidCommand | invalidChecksum
  deriving DecidableEq

/-! ### Receiving -/

/-- How a receive ends; `rest` is what is left in the transport. -/
inductive Outcome
  /-- The stream ends before the message does. -/
  | waiting
  | failed (status : Status) (rest : List UInt8)
  | received (command payload rest : List UInt8)
  deriving DecidableEq

/-- `btcOp` of a receive, with the buffer of the socket, the stream and the transport. -/
structure RecvOp where
  state : OpState
  /-- The limit. -/
  size : UInt64
  receiveBuffer : Memory
  stream : List UInt8
  source : Source UInt8

/-- One turn of the loop of `startBtcRecv`. -/
def startBtcRecv (cfg : Config) (op : RecvOp) : Turn RecvOp Outcome :=
  match op.state with
  | .stInitialize =>
    op.source.turn headerSize .waiting fun bytes rest =>
      { op with
        state := .stReadData
        receiveBuffer := fill op.receiveBuffer 0 bytes
        source := rest }
  | .stReadData =>
    let header := decodeMessageHeader cfg.order op.receiveBuffer
    let op := { op with state := .stFinished, receiveBuffer := header }
    if magic cfg.order header ≠ cfg.magic then .done (.failed .invalidMagic op.source.input)
    else if !commandValid (command header) then .done (.failed .invalidCommand op.source.input)
    else if op.size < (length cfg.order header).toUInt64 then
      .done (.failed .bufferTooSmall op.source.input)
    else
      let op := { op with stream := [] }
      if !reserve op.stream (length cfg.order header).toUInt64 then
        .done (.failed .bufferTooSmall op.source.input)
      else
        op.source.turn (length cfg.order header).toNat .waiting fun bytes rest =>
          { op with stream := op.stream ++ bytes, source := rest }
  | .stFinished =>
    let header := op.receiveBuffer
    if checksum cfg.order header ≠
        cfg.calculateCheckSum (op.stream.take (length cfg.order header).toNat) then
      .done (.failed .invalidChecksum op.source.input)
    else .done (.received (command header) op.stream op.source.input)
  | .stWriteData => .done (.failed .unknownError op.source.input)

/-- What `implBtcRecv` works on. -/
structure RecvLocals where
  receiveBuffer : Memory
  stream : List UInt8
  source : Source UInt8

/-- The operation that `implBtcRecv` leaves behind. -/
def RecvLocals.handOver (limit : UInt64) (state : OpState) (l : RecvLocals) : RecvOp where
  state := state
  size := limit
  receiveBuffer := l.receiveBuffer
  stream := l.stream
  source := l.source

/-- `implBtcRecv` from where the header was read. -/
def implBtcRecvData (cfg : Config) (sizeLimit : UInt64) (l : RecvLocals) :
    Turn (RecvLocals ⊕ RecvOp) Outcome :=
  let header := decodeMessageHeader cfg.order l.receiveBuffer
  let result : Status :=
    if magic cfg.order header ≠ cfg.magic then .invalidMagic
    else if !commandValid (command header) then .invalidCommand
    else if sizeLimit < (length cfg.order header).toUInt64 then .bufferTooSmall
    else .success
  let l := { l with receiveBuffer := header, stream := [] }
  if result = .success then
    if !reserve l.stream (length cfg.order header).toUInt64 then
      .done (.failed .bufferTooSmall l.source.input)
    else
      match l.source.read (length cfg.order header).toNat with
      | .starved => .done .waiting
      | .parked bytes rest =>
        .park (.inr ({ l with stream := l.stream ++ bytes, source := rest }.handOver sizeLimit
          .stFinished))
      | .inline bytes rest =>
        let l := { l with stream := l.stream ++ bytes, source := rest }
        if checksum cfg.order header ≠
            cfg.calculateCheckSum (l.stream.take (length cfg.order header).toNat) then
          .done (.failed .invalidChecksum l.source.input)
        else .done (.received (command header) l.stream l.source.input)
  else .done (.failed result l.source.input)

/-- `implBtcRecv`, and the operation it leaves behind. A failure is reported by an operation that is
given its status at once. -/
def implBtcRecv (cfg : Config) (sizeLimit : UInt64) :
    RecvLocals ⊕ RecvOp → Turn (RecvLocals ⊕ RecvOp) Outcome
  | .inl l =>
    match l.source.read headerSize with
    | .starved => .done .waiting
    | .parked bytes rest =>
      .park (.inr ({ l with receiveBuffer := fill l.receiveBuffer 0 bytes, source := rest }.handOver
        sizeLimit .stReadData))
    | .inline bytes rest =>
      implBtcRecvData cfg sizeLimit
        { l with receiveBuffer := fill l.receiveBuffer 0 bytes, source := rest }
  | .inr op => (startBtcRecv cfg op).map .inr

/-! ### Sending -/

/-- `USERSPACE_BUFFER_SIZE` -/
def userspaceBufferSize : ℕ := 1472

/-- `btcPayloadFitsHeader` -/
def btcPayloadFitsHeader (size : UInt64) : Bool := size.toNat ≤ 2 ^ 32 - 1

/-- How a send ends. -/
inductive SendOutcome
  | failed (status : Status) (sink : Sink UInt8)
  | sent (sink : Sink UInt8)

/-- `btcOp` of a send, with the transport. -/
structure SendOp where
  state : OpState
  command : List UInt8
  data : List UInt8
  sink : Sink UInt8

/-- `op->size` -/
def SendOp.size (op : SendOp) : UInt64 := .ofNat op.data.length

/-- `btcSendFirstWrite`: the state it sets and the write. `buffer` is not initialised. -/
def btcSendFirstWrite (cfg : Config) (buffer : Memory) (command data : List UInt8)
    (sink : Sink UInt8) : OpState × Push UInt8 :=
  let size : UInt64 := .ofNat data.length
  let buffer := buildMessageHeader cfg buffer command data size.toUInt32
  if size.toNat + headerSize ≤ userspaceBufferSize then
    (.stFinished, sink.write (slice (fill buffer headerSize data) 0 (size.toNat + headerSize)))
  else (.stWriteData, sink.write (slice buffer 0 headerSize))

/-- One turn of the loop of `startBtcSend`; the check before the loop is made at each turn. -/
def startBtcSend (cfg : Config) (buffer : Memory) (op : SendOp) : Turn SendOp SendOutcome :=
  if !btcPayloadFitsHeader op.size then .done (.failed .bufferTooSmall op.sink)
  else
    match op.state with
    | .stInitialize =>
      match btcSendFirstWrite cfg buffer op.command op.data op.sink with
      | (state, .inline sink) => .next { op with state := state, sink := sink }
      | (state, .parked sink rest) => .park { op with state := state, sink := sink.finish rest }
    | .stWriteData =>
      op.sink.turn op.data fun sink => { op with state := .stFinished, sink := sink }
    | .stFinished => .done (.sent op.sink)
    | .stReadData => .done (.failed .unknownError op.sink)

/-- `implBtcSend`, up to where it returns. -/
def implBtcSendNow (cfg : Config) (buffer : Memory) (command data : List UInt8) (sink : Sink UInt8) :
    Turn (Sink UInt8 ⊕ SendOp) SendOutcome :=
  if !btcPayloadFitsHeader (.ofNat data.length) then .done (.failed .bufferTooSmall sink)
  else
    let leave (state : OpState) (sink : Sink UInt8) : Turn (Sink UInt8 ⊕ SendOp) SendOutcome :=
      .park (.inr ⟨state, copyCommand command, data, sink⟩)
    match btcSendFirstWrite cfg buffer command data sink with
    | (state, .parked sink rest) => leave state (sink.finish rest)
    | (state, .inline sink) =>
      if state = .stWriteData then
        match sink.write data with
        | .inline sink => .done (.sent sink)
        | .parked sink rest => leave .stFinished (sink.finish rest)
      else .done (.sent sink)

/-- `implBtcSend`, and the operation it leaves behind. -/
def implBtcSend (cfg : Config) (buffer : Memory) (command data : List UInt8) :
    Sink UInt8 ⊕ SendOp → Turn (Sink UInt8 ⊕ SendOp) SendOutcome
  | .inl sink => implBtcSendNow cfg buffer command data sink
  | .inr op => (startBtcSend cfg buffer op).map .inr

/-- A send that is queued. -/
def queuedSend (command data : List UInt8) (sink : Sink UInt8) : SendOp :=
  ⟨.stInitialize, copyCommand command, data, sink⟩

/-- A receive that is queued. -/
def queuedRecv (limit : UInt64) (receiveBuffer : Memory) (stream : List UInt8)
    (source : Source UInt8) : RecvOp :=
  ⟨.stInitialize, limit, receiveBuffer, stream, source⟩

end Btc

end Asyncio

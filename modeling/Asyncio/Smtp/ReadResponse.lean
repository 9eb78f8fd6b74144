import Asyncio.Smtp.Replies
import Asyncio.Wire.Transport

/-!
# Reading a reply

`smtpReadResponse` looks for a reply in the buffer of the client, and reads more when there is none. It
returns when a read parks, and the operation calls it again; the read has then put its bytes behind the
others. Plain and TLS sockets do not differ here. Transports that fail are left out: the operation then ends
with the status of the read.

## Main results

* `Reply.unique` — a stream has one reply at its start
* `smtpReadResponse_reads` — what is read does not depend on how the stream arrives
-/

namespace Asyncio

namespace Smtp

open Wire List

/-! ### Code -/

/-- `AsyncOpStatus` and `SmtpOpStatus`, as far as a client returns them by itself. -/
inductive Status
  | aosSuccess | aosUnknownError | smtpInvalidFormat | smtpError
  deriving DecidableEq

/-- `op->ResultCode` and `op->Response`. -/
structure Result where
  resultCode : ℕ
  response : List UInt8
  deriving DecidableEq

/-- `smtpExpectRcpt` -/
def smtpExpectRcpt : ℕ := 1

/-- `smtpCheckReply` -/
def smtpCheckReply (code expected : ℕ) : Status :=
  let accepted : Bool :=
    if expected = 0 then 200 ≤ code ∧ code ≤ 399
    else if expected = smtpExpectRcpt then 250 ≤ code ∧ code ≤ 252
    else code = expected
  if accepted then .aosSuccess else .smtpError

/-- One turn of the loop of `smtpReadResponse`: it returns, or reads into the free part of the buffer. -/
inductive Attempt
  | returns (status : Status) (result : Result) (client : ReplyBuffer)
  | reads (client : ReplyBuffer)

/-- The bytes that were not parsed are moved to the front of the buffer. -/
def ReplyBuffer.compact (client : ReplyBuffer) : ReplyBuffer :=
  let remaining := client.limit - client.ptr
  let buffer :=
    if remaining ≠ 0 ∧ client.ptr ≠ 0 then fill client.buffer 0 (slice client.buffer client.ptr remaining)
    else client.buffer
  ⟨buffer, 0, remaining⟩

/-- The loop of `smtpReadResponse`, up to its read. -/
def attempt (client : ReplyBuffer) (result : Result) (expectedCode : ℕ) : Attempt :=
  match smtpTryParse client with
  | .success resultCode response client =>
    .returns (smtpCheckReply resultCode expectedCode) ⟨resultCode, response⟩ client
  | .invalidFormat => .returns .smtpInvalidFormat result client
  | .pending =>
    -- a full buffer without a reply: a read of nothing would not end
    if client.limit - client.ptr = bufferSize then .returns .smtpInvalidFormat result client
    else .reads client.compact

/-- What a read puts into the buffer. -/
def ReplyBuffer.append (client : ReplyBuffer) (bytes : List UInt8) : ReplyBuffer :=
  ⟨fill client.buffer client.limit bytes, client.ptr, client.limit + bytes.length⟩

/-- The operation, its client and the transport. -/
structure Reading where
  client : ReplyBuffer
  result : Result
  source : Arrivals UInt8

/-- How the operation ends; without a status it still waits for a read. -/
structure Ending where
  status : Option Status
  reading : Reading

/-- A turn of the loop of `smtpReadResponse`. -/
def smtpReadResponse (expectedCode : ℕ) (r : Reading) : Turn Reading Ending :=
  match attempt r.client r.result expectedCode with
  | .returns status result client => .done ⟨some status, { r with client, result }⟩
  | .reads client =>
    r.source.turn (bufferSize - client.limit) ⟨none, { r with client }⟩ fun bytes source =>
      { r with client := client.append bytes, source }

/-! ### The start of a stream -/

variable {l l' rest rest' : List UInt8} {code : List UInt8}

/-- What follows the first bytes does not matter to them. -/
theorem begins_append (h : 5 ≤ l.length) : Begins (l ++ l') ↔ Begins l := by
  rw [Begins, Begins, take_append_of_le_length (by omega), getElem?_append_left (by omega),
    getElem?_append_left (by omega)]

/-- Nor does it to a line that is not one of a reply. -/
theorem Scans.bad_append (h : Scans code l .bad) (l' : List UInt8) : Scans code (l ++ l') .bad := by
  generalize hlines : Lines.bad = lines at h
  induction h with
  | more => cases hlines
  | bad rest hline hcont hlast =>
    rw [append_assoc, cons_append]
    exact .bad _ hline hcont hlast
  | last => cases hlines
  | @cont text rest lines hline hrest ih =>
    cases lines with
    | more => cases hlines
    | complete => cases hlines
    | bad =>
      rw [append_assoc, cons_append]
      exact .cont hline (ih rfl)

namespace Reply

variable (reply : Reply)

theorem not_mem_code : 10 ∉ reply.code := fun hmem => absurd (reply.digits 10 hmem) (by decide)

/-- The code, the mark of the first line and a byte after it. -/
theorem encode_eq : ∃ mark c tail, reply.encode = reply.code ++ mark :: c :: tail ∧
    (mark = 45 ∨ mark = 32 ∨ (mark = 13 ∧ c = 10)) := by
  have htext (text : List UInt8) : ∃ c tail, text ++ [13] = c :: tail :=
    exists_cons_of_ne_nil (by simp)
  rcases hreply : reply.texts with _ | ⟨text, texts⟩
  · rcases hlast : reply.last with _ | text
    · refine ⟨13, 10, [], ?_, .inr (.inr ⟨rfl, rfl⟩)⟩
      rw [encode, hreply, hlast, encodeLines_nil, lastLine, append_assoc]
      rfl
    · obtain ⟨c, tail, htail⟩ := htext text
      refine ⟨32, c, tail ++ [10], ?_, .inr (.inl rfl)⟩
      rw [encode, hreply, hlast, encodeLines_nil, lastLine, htail, append_assoc]
      rfl
  · obtain ⟨c, tail, htail⟩ := htext text
    refine ⟨45, c, tail ++ 10 :: encodeLines reply.code texts reply.last, ?_, .inl rfl⟩
    rw [encode, hreply, encodeLines_cons, contLine, htail, append_assoc]
    rfl

theorem five_le : 5 ≤ reply.encode.length := by
  obtain ⟨mark, c, tail, heq, -⟩ := reply.encode_eq
  rw [heq, length_append, reply.length_code, length_cons, length_cons]
  omega

theorem take_encode (rest : List UInt8) : (reply.encode ++ rest).take 3 = reply.code := by
  obtain ⟨mark, c, tail, heq, -⟩ := reply.encode_eq
  rw [heq, append_assoc, take_left' reply.length_code]

theorem begins (rest : List UInt8) : Begins (reply.encode ++ rest) := by
  refine ⟨by rw [take_encode]; exact reply.digits, ?_⟩
  obtain ⟨mark, c, tail, heq, hmark⟩ := reply.encode_eq
  have hget (i : ℕ) : (reply.encode ++ rest)[3 + i]? = (mark :: c :: (tail ++ rest))[i]? := by
    rw [heq, append_assoc, getElem?_append_right (by rw [reply.length_code]; omega), reply.length_code,
      Nat.add_sub_cancel_left]
    rfl
  rw [hget 0, hget 1]
  simpa using hmark

theorem scans (rest : List UInt8) : Scans ((reply.encode ++ rest).take 3) (reply.encode ++ rest)
    (.complete reply.texts reply.last rest) := by
  rw [take_encode]
  exact scans_encodeLines reply.not_mem_code reply.texts_lf reply.last_lf rest

variable {reply} {reply' : Reply}

/-- **A stream has one reply at its start.** -/
theorem unique (h : reply.encode ++ rest = reply'.encode ++ rest') : reply = reply' ∧ rest = rest' := by
  have hscans := reply.scans rest
  have hcode := reply.take_encode rest
  rw [h] at hscans hcode
  have hlines := hscans.unique (reply'.scans rest')
  rw [take_encode] at hcode
  cases reply
  cases reply'
  cases hlines
  cases hcode
  exact ⟨rfl, rfl⟩

end Reply

/-- `b` does not begin with a reply that has room in the buffer. -/
def NoReply (b : List UInt8) : Prop :=
  ∀ (reply : Reply) rest, b = reply.encode ++ rest → bufferSize < reply.encode.length

/-- What a server must not send: other first bytes, a line that does not belong to a reply, or more than the
buffer has room for. -/
def Refused (b : List UInt8) : Prop :=
  (5 ≤ b.length ∧ (¬Begins b ∨ Scans (b.take 3) b .bad)) ∨ (bufferSize ≤ b.length ∧ NoReply b)

theorem take_three_append (h : 5 ≤ l.length) : (l ++ l').take 3 = l.take 3 :=
  take_append_of_le_length (by omega)

/-- What is bad at the start of the buffer is so at the start of the stream. -/
theorem bad_append (hfive : 5 ≤ l.length) (hbad : ¬Begins l ∨ Scans (l.take 3) l .bad) (l' : List UInt8) :
    ¬Begins (l ++ l') ∨ Scans ((l ++ l').take 3) (l ++ l') .bad := by
  rw [begins_append hfive, take_three_append hfive]
  exact hbad.imp_right fun hscans => hscans.bad_append l'

/-- A stream that begins with something bad does not begin with a reply. -/
theorem not_reply_of_bad {b : List UInt8} (hbad : ¬Begins b ∨ Scans (b.take 3) b .bad) (reply : Reply)
    (rest : List UInt8) : b ≠ reply.encode ++ rest := by
  rintro rfl
  rcases hbad with hbegins | hscans
  · exact hbegins (reply.begins rest)
  · exact nomatch hscans.unique (reply.scans rest)

/-- A stream whose lines do not end in the first bytes does not begin with a reply there. -/
theorem lt_of_more (hmore : Scans (l.take 3) l .more) {reply : Reply} (h : l ++ l' = reply.encode ++ rest) :
    l.length < reply.encode.length := by
  by_contra hle
  obtain ⟨tail, rfl⟩ : reply.encode <+: l :=
    prefix_of_prefix_length_le ⟨rest, h.symm⟩ ⟨l', rfl⟩ (Nat.le_of_not_lt hle)
  exact nomatch hmore.unique (reply.scans tail)

/-- Nor is it refused, while there is room. -/
theorem waits_of_more (hroom : l.length < bufferSize)
    (hmore : l.length < 5 ∨ (Begins l ∧ Scans (l.take 3) l .more)) : NoReply l ∧ ¬Refused l := by
  constructor
  · rintro reply rest rfl
    rcases hmore with hshort | ⟨-, hscans⟩
    · have hfive := reply.five_le
      rw [length_append] at hshort
      omega
    · exact nomatch hscans.unique (reply.scans rest)
  · rintro (⟨hfive, hbad⟩ | ⟨hfull, -⟩)
    · rcases hmore with hshort | ⟨hbegins, hscans⟩
      · omega
      · rcases hbad with hother | hbad
        · exact hother hbegins
        · exact nomatch hscans.unique hbad
    · omega

/-! ### Turns -/

/-- What holds of the buffer between the calls. -/
def ReplyBuffer.Valid (client : ReplyBuffer) : Prop := client.ptr ≤ client.limit ∧ client.limit ≤ bufferSize

/-- The bytes that were not parsed, in the buffer and in the transport. -/
def Reading.unread (r : Reading) : List UInt8 := r.client.buffered ++ r.source.input

variable {client : ReplyBuffer}

theorem buffered_append (h : client.ptr ≤ client.limit) (bytes : List UInt8) :
    (client.append bytes).buffered = client.buffered ++ bytes := by
  obtain ⟨n, hn⟩ := Nat.exists_eq_add_of_le h
  rw [ReplyBuffer.append, ReplyBuffer.buffered, ReplyBuffer.buffered, hn, Nat.add_assoc, Nat.add_sub_cancel_left,
    Nat.add_sub_cancel_left, slice_fill_append]

/-- What a turn of the loop may come to. -/
inductive Attempts (client : ReplyBuffer) (result : Result) (expectedCode : ℕ) : Prop
  | refused (h : attempt client result expectedCode = .returns .smtpInvalidFormat result client)
      (hbad : 5 ≤ client.buffered.length ∧
        (¬Begins client.buffered ∨ Scans (client.buffered.take 3) client.buffered .bad))
  | full (h : attempt client result expectedCode = .returns .smtpInvalidFormat result client)
      (hlength : client.buffered.length = bufferSize)
      (hscans : Scans (client.buffered.take 3) client.buffered .more)
  | reads (h : attempt client result expectedCode = .reads client.compact)
      (hlength : client.buffered.length ≠ bufferSize)
      (hmore : client.buffered.length < 5 ∨
        (Begins client.buffered ∧ Scans (client.buffered.take 3) client.buffered .more))
  | found {reply : Reply} {rest : List UInt8} {client' : ReplyBuffer}
      (h : attempt client result expectedCode =
        .returns (smtpCheckReply (atoi reply.code) expectedCode) ⟨atoi reply.code, reply.response ++ [0]⟩ client')
      (hreply : client.buffered = reply.encode ++ rest) (hbuffered : client'.buffered = rest)
      (hlimit : client'.limit = client.limit) (hptr : client'.ptr ≤ client'.limit)

/-- Making room does not change what is in the buffer. -/
theorem buffered_compact (client : ReplyBuffer) : client.compact.buffered = client.buffered := by
  have hslice := slice_fill client.buffer 0 client.buffered
  rw [length_buffered] at hslice
  rw [ReplyBuffer.compact, ReplyBuffer.buffered, Nat.sub_zero]
  dsimp only
  split
  · exact hslice
  · next hstays =>
    rcases not_and_or.mp hstays with hnone | hfront
    · rw [ReplyBuffer.buffered, not_not.mp hnone]
      rfl
    · rw [ReplyBuffer.buffered, not_not.mp hfront]

theorem attempts (client : ReplyBuffer) (result : Result) (expectedCode : ℕ) :
    Attempts client result expectedCode := by
  have hpending (h : smtpTryParse client = .pending) (hmore : client.buffered.length < 5 ∨
      (Begins client.buffered ∧ Scans (client.buffered.take 3) client.buffered .more)) :
      Attempts client result expectedCode := by
    have hlength := length_buffered client
    by_cases hfull : client.limit - client.ptr = bufferSize
    · rcases hmore with hshort | ⟨-, hscans⟩
      · rw [hlength, hfull] at hshort
        exact absurd hshort (by decide)
      · exact .full (by rw [attempt, h]; exact if_pos hfull) (hlength.trans hfull) hscans
    · exact .reads (by rw [attempt, h]; exact if_neg hfull) (hlength.trans_ne hfull) hmore
  rcases smtpTryParse_looks client with ⟨h, hshort⟩ | ⟨h, hbegins, hscans⟩ | ⟨h, hfive, hbad⟩ |
    ⟨reply, rest, hreply, client', h, hrest, hlimit, hptr⟩
  · exact hpending h (.inl hshort)
  · exact hpending h (.inr ⟨hbegins, hscans⟩)
  · exact .refused (by rw [attempt, h]) ⟨hfive, hbad⟩
  · exact .found (by rw [attempt, h]) hreply hrest hlimit hptr

/-- What a read of a reply may come to: the reply at the start of the stream, and what follows it is not
parsed; an error, if there is none and never will be; or it waits. -/
inductive Reads (expectedCode : ℕ) (b : List UInt8) (e : Ending) : Prop
  | replied (reply : Reply) (h : b = reply.encode ++ e.reading.unread)
      (hsize : reply.encode.length ≤ bufferSize)
      (hstatus : e.status = some (smtpCheckReply (atoi reply.code) expectedCode))
      (hresult : e.reading.result = ⟨atoi reply.code, reply.response ++ [0]⟩)
  | refused (h : NoReply b) (hrefused : Refused b) (hstatus : e.status = some .smtpInvalidFormat)
  | waits (h : NoReply b) (hrefused : ¬Refused b) (hstatus : e.status = none) (hunread : e.reading.unread = b)

/-- A turn that reads: there is nothing to read, or some bytes are put behind the others. -/
theorem reads_cases {expectedCode : ℕ} {r : Reading}
    (h : attempt r.client r.result expectedCode = .reads r.client.compact)
    (hroom : r.client.compact.limit < bufferSize) :
    (r.source.input = [] ∧
        smtpReadResponse expectedCode r = .done ⟨none, { r with client := r.client.compact }⟩) ∨
      ∃ piece source, piece ≠ [] ∧ r.client.compact.limit + piece.length ≤ bufferSize ∧
        piece ++ source.input = r.source.input ∧ Leads (smtpReadResponse expectedCode) r
          { r with client := r.client.compact.append piece, source := source } := by
  obtain ⟨hnil, hwait⟩ | ⟨piece, source, hpiece, hfits, hsplit, hnext⟩ :=
    Arrivals.turn_cases (Nat.sub_pos_of_lt hroom) r.source
      (⟨none, { r with client := r.client.compact }⟩ : Ending)
      fun bytes source => ({ r with client := r.client.compact.append bytes, source := source } : Reading)
  · exact .inl ⟨hnil, by rw [smtpReadResponse, h]; exact hwait⟩
  · refine .inr ⟨piece, source, hpiece, by omega, hsplit, ?_⟩
    rw [Leads, smtpReadResponse, h]
    exact hnext

/-- What is read does not depend on how the stream arrives. -/
theorem yields_reads (expectedCode : ℕ) {r : Reading} (hr : r.client.Valid) :
    ∃ e, Yields (smtpReadResponse expectedCode) r e ∧ Reads expectedCode r.unread e := by
  -- over what is still to arrive; the unread bytes stay the same
  induction hn : r.source.input.length using Nat.strong_induction_on generalizing r with
  | _ n ih =>
  obtain ⟨hptr, hlimit⟩ := hr
  have hlength := length_buffered r.client
  have hunread : r.unread.length = r.client.buffered.length + r.source.input.length := length_append
  rcases attempts r.client r.result expectedCode with ⟨h, hfive, hbad⟩ | ⟨h, hfull, hscans⟩ |
    ⟨h, hroom, hmore⟩ | @⟨reply, rest, client', h, hreply, hbuffered, hlimit', hptr'⟩
  · have hbad := bad_append hfive hbad r.source.input
    refine ⟨_, .done (by rw [smtpReadResponse, h]), .refused (fun reply rest heq => ?_) (.inl ⟨?_, hbad⟩) rfl⟩
    · exact absurd heq (not_reply_of_bad hbad reply rest)
    · omega
  · have hnone : NoReply r.unread := fun reply rest heq => hfull ▸ lt_of_more hscans heq
    exact ⟨_, .done (by rw [smtpReadResponse, h]), .refused hnone (.inr ⟨by omega, hnone⟩) rfl⟩
  · have hcompact : r.client.compact.limit = r.client.buffered.length := hlength.symm
    obtain ⟨hnil, hdone⟩ | ⟨piece, source, hpiece, hfits, hsplit, hleads⟩ := reads_cases h (by omega)
    · have hsame : r.unread = r.client.buffered := by rw [Reading.unread, hnil, append_nil]
      obtain ⟨hnone, hnot⟩ := waits_of_more (by omega) hmore
      refine ⟨_, .done hdone, .waits (hsame ▸ hnone) (hsame ▸ hnot) rfl ?_⟩
      rw [Reading.unread, buffered_compact]
      rfl
    · have hsame : (⟨r.client.compact.append piece, r.result, source⟩ : Reading).unread = r.unread := by
        rw [Reading.unread, buffered_append (Nat.zero_le _), buffered_compact, append_assoc, hsplit]
        rfl
      have hshorter : source.input.length < n := by
        have hpos := length_pos_iff.mpr hpiece
        rw [← hn, ← hsplit, length_append]
        omega
      obtain ⟨e, hyields, hreads⟩ := ih _ hshorter (r :=
        ⟨r.client.compact.append piece, r.result, source⟩) ⟨Nat.zero_le _, hfits⟩ rfl
      exact ⟨e, .step hleads hyields, hsame ▸ hreads⟩
  · refine ⟨_, .done (by rw [smtpReadResponse, h]), .replied reply ?_ ?_ rfl rfl⟩
    · rw [Reading.unread, hreply, append_assoc, ← hbuffered]
      rfl
    · have hle := congrArg List.length hreply
      rw [length_append] at hle
      omega

/-- **The reply reader**: a reply at the start of the stream is read whole and nothing more; without one, an
error is reported if the stream can no longer begin with one, and otherwise the reader waits. -/
theorem smtpReadResponse_reads (expectedCode : ℕ) (r : Reading) (hr : r.client.Valid) :
    ∃ e, Yields (smtpReadResponse expectedCode) r e ∧
      (∀ (reply : Reply) rest, r.unread = reply.encode ++ rest → reply.encode.length ≤ bufferSize →
        e.status = some (smtpCheckReply (atoi reply.code) expectedCode) ∧
          e.reading.result = ⟨atoi reply.code, reply.response ++ [0]⟩ ∧ e.reading.unread = rest) ∧
      (NoReply r.unread → (Refused r.unread → e.status = some .smtpInvalidFormat) ∧
        (¬Refused r.unread → e.status = none ∧ e.reading.unread = r.unread)) := by
  obtain ⟨e, hyields, hreads⟩ := yields_reads expectedCode hr
  refine ⟨e, hyields, fun reply rest heq hsize => ?_, fun hnone => ?_⟩
  · rcases hreads with ⟨reply', heq', -, hstatus, hresult⟩ | ⟨hnone, -⟩ | ⟨hnone, -⟩
    · obtain ⟨rfl, rfl⟩ := Reply.unique (heq'.symm.trans heq)
      exact ⟨hstatus, hresult, rfl⟩
    · exact absurd (hnone reply rest heq) (Nat.not_lt_of_le hsize)
    · exact absurd (hnone reply rest heq) (Nat.not_lt_of_le hsize)
  · rcases hreads with ⟨reply', heq', hsize', -⟩ | ⟨-, hrefused, hstatus⟩ | ⟨-, hrefused, hstatus, hunread⟩
    · exact absurd (hnone reply' _ heq') (Nat.not_lt_of_le hsize')
    · exact ⟨fun _ => hstatus, fun hnot => absurd hrefused hnot⟩
    · exact ⟨fun h => absurd h hrefused, fun _ => ⟨hstatus, hunread⟩⟩

/-- A client that has read nothing, and a server that sends `text`. -/
def Reading.first (text : String) : Reading :=
  ⟨⟨fun _ => 0, 0, 0⟩, ⟨0, []⟩, ⟨ascii text, fun _ => 3, fun i => i % 2 = 0⟩⟩

theorem smtpReadResponse_reads_greeting : (Reading.first "220-a\r\n220 b\r\n250").client.Valid ∧
    ∃ e, Yields (smtpReadResponse 220) (.first "220-a\r\n220 b\r\n250") e ∧ e.status = some .aosSuccess ∧
      e.reading.result = ⟨220, ascii "a\nb\n" ++ [0]⟩ ∧ e.reading.unread = ascii "250" := by
  have hvalid : (Reading.first "220-a\r\n220 b\r\n250").client.Valid := ⟨le_rfl, Nat.zero_le _⟩
  obtain ⟨e, hyields, hreply, -⟩ := smtpReadResponse_reads 220 _ hvalid
  have hdigits : ∀ c ∈ ascii "220", isDigit c = true := all_eq_true.mp (by decide)
  obtain ⟨hstatus, hresult, hunread⟩ := hreply
    ⟨ascii "220", [ascii "a"], some (ascii "b"), rfl, hdigits, by decide, by decide⟩ (ascii "250") rfl
    (of_decide_eq_true rfl)
  exact ⟨hvalid, e, hyields, hstatus, hresult, hunread⟩

/-- Too short for the first check: a line that cannot belong to a reply is waited on. -/
theorem smtpReadResponse_waits : Scans ((ascii "ab\n").take 3) (ascii "ab\n") .bad ∧
    (Reading.first "ab\n").unread = ascii "ab\n" ∧
    ∃ e, Yields (smtpReadResponse 220) (.first "ab\n") e ∧ e.status = none := by
  refine ⟨?_, rfl, _, ⟨3, rfl⟩, rfl⟩
  change Scans _ (ascii "ab" ++ 10 :: []) _
  refine .bad [] (by decide) (fun text heq => ?_) fun text heq => ?_
  · exact nomatch congrArg (·[2]?) heq
  · cases text with
    | none => exact nomatch congrArg (·[2]?) heq
    | some text => exact nomatch congrArg (·[2]?) heq

end Smtp

end Asyncio

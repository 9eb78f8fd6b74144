import Asyncio.DynamicBuffer
import Asyncio.Smtp.Base64

/-!
# What is sent for a mail

`smtpSendMailPrepare` puts all lines of a mail transaction in one buffer, one after the other, and keeps
where each of them is. What the caller gives must not get out of its line: CR and LF are dropped from names
and addresses, and login and password are in base64. The message itself has lines of its own. A dot at the
start of a line is doubled, so that no line of it is the end mark.

A string is the list of its bytes, without the NUL, and is somewhere in memory.

## Main results

* `isSome_smtpSendMailPrepare` — there is room for a mail that is not enormous
* `mail_transparent` — every line is what it should be, and the receiver gets the message
-/

namespace Asyncio

namespace Smtp

open Wire List Option

/-! ### Code -/

/-- A string in memory. -/
structure CString where
  bytes : List UInt8
  no_nul : 0 ∉ bytes
  fits : bytes.length ≤ ptrdiffMax

/-- A part of the buffer. -/
structure Slice where
  offset : ℕ
  size : ℕ

/-- `putBase64` -/
def putBase64 (buffer : DynamicBuffer) (data : List UInt8) : Option (Slice × DynamicBuffer) :=
  (dynamicBufferAlloc buffer (base64getEncodeLength data.length + 1)).map fun (ptr, allocated) =>
    let encoded := base64Encode data
    let m := fill allocated.data ptr (encoded ++ [0])
    let m := fill m (ptr + encoded.length) [13]
    let m := fill m (ptr + encoded.length + 1) [10]
    (⟨buffer.offset, encoded.length + 2⟩, { allocated with data := m })

/-- What `strcspn(data, "\r\n")` goes over. -/
def notBreak (c : UInt8) : Bool := c ≠ 13 && c ≠ 10

/-- `dynamicBufferWriteNoCrlf` -/
def dynamicBufferWriteNoCrlf (buffer : DynamicBuffer) (data : List UInt8) : Option DynamicBuffer :=
  (dynamicBufferWrite buffer (data.takeWhile notBreak)).bind fun buffer =>
    match _h : data.dropWhile notBreak with
    | [] => some buffer
    | _ :: rest => dynamicBufferWriteNoCrlf buffer rest
termination_by data.length
decreasing_by
  have hle := (dropWhile_suffix (l := data) notBreak).length_le
  rw [_h, length_cons] at hle
  omega

/-- `if (*p == c) p++` -/
def skip (c : UInt8) (p : List UInt8) : List UInt8 := if p.head? = some c then p.tail else p

/-- Where `dynamicBufferWriteMailBody` goes on after a line: behind its CR, its LF or both. -/
def afterLine (p : List UInt8) : List UInt8 := skip 10 (skip 13 (p.dropWhile notBreak))

@[simp] theorem skip_cons_self (c : UInt8) (p : List UInt8) : skip c (c :: p) = p := if_pos rfl

@[simp] theorem skip_cons_of_ne {c d : UInt8} (h : d ≠ c) (p : List UInt8) : skip c (d :: p) = d :: p :=
  if_neg fun heq => h (Option.some.inj heq)

theorem length_skip_le (c : UInt8) (p : List UInt8) : (skip c p).length ≤ p.length := by
  rw [skip]
  split
  · rw [length_tail]
    exact Nat.sub_le _ _
  · exact le_rfl

theorem notBreak_of_dropWhile {p rest : List UInt8} {c : UInt8} (h : p.dropWhile notBreak = c :: rest) :
    notBreak c = false := by
  have hhead := head_dropWhile_not notBreak (l := p) (by rw [h]; exact cons_ne_nil _ _)
  simpa only [h, head_cons] using hhead

theorem length_afterLine_lt {p : List UInt8} (h : p ≠ []) : (afterLine p).length < p.length := by
  have hsuffix := (dropWhile_suffix (l := p) notBreak).length_le
  rw [afterLine]
  cases hdrop : p.dropWhile notBreak with
  | nil => exact length_pos_iff.mpr h
  | cons c rest =>
    have hbreak := notBreak_of_dropWhile hdrop
    rw [hdrop, length_cons] at hsuffix
    by_cases hcr : c = 13
    · have hle := length_skip_le 10 rest
      rw [hcr, skip_cons_self]
      omega
    · have hlf : c = 10 := by simpa [notBreak, hcr] using hbreak
      rw [skip_cons_of_ne hcr, hlf, skip_cons_self]
      omega

/-- The loop of `dynamicBufferWriteMailBody`. -/
def mailBodyLoop (buffer : DynamicBuffer) : List UInt8 → Option DynamicBuffer
  | [] => some buffer
  | c :: p =>
    (if c = 46 then dynamicBufferWrite buffer [46] else some buffer).bind fun buffer =>
      (dynamicBufferWrite buffer ((c :: p).takeWhile notBreak)).bind fun buffer =>
        (dynamicBufferWrite buffer [13, 10]).bind fun buffer => mailBodyLoop buffer (afterLine (c :: p))
termination_by p => p.length
decreasing_by exact length_afterLine_lt (cons_ne_nil _ _)

/-- `dynamicBufferWriteMailBody` -/
def dynamicBufferWriteMailBody (buffer : DynamicBuffer) (text : List UInt8) : Option DynamicBuffer :=
  (mailBodyLoop buffer text).bind fun buffer => dynamicBufferWrite buffer [46, 13, 10]

/-- Strings of the caller, each between two texts: `dynamicBufferWriteString` before and after
`dynamicBufferWriteNoCrlf`. -/
def writeField (before : String) (data : List UInt8) (after : String) (buffer : DynamicBuffer) :
    Option DynamicBuffer :=
  (dynamicBufferWrite buffer (ascii before)).bind fun buffer =>
    (dynamicBufferWriteNoCrlf buffer data).bind fun buffer => dynamicBufferWrite buffer (ascii after)

/-- A block of `smtpSendMailPrepare`, which writes one of the parts. -/
def block (f : DynamicBuffer → Option DynamicBuffer) (buffer : DynamicBuffer) :
    Option (Slice × DynamicBuffer) :=
  (f buffer).map fun buffer' => (⟨buffer.offset, buffer'.offset - buffer.offset⟩, buffer')

/-- The block of the message. -/
def writeText (from' to' subject text : List UInt8) (buffer : DynamicBuffer) : Option DynamicBuffer :=
  (writeField "From: " from' "\r\n" buffer).bind fun buffer =>
    (writeField "To: " to' "\r\n" buffer).bind fun buffer =>
      (writeField "Subject: " subject "\r\n\r\n" buffer).bind fun buffer =>
        dynamicBufferWriteMailBody buffer text

/-- What `SMTPOp` has for a mail. -/
structure Mail where
  buffer : DynamicBuffer
  startTls : Bool
  ehlo : Slice
  login : Slice
  password : Slice
  from' : Slice
  to' : Slice
  text : Slice

/-- `smtpSendMailPrepare`; the address of the server is left out. -/
def smtpSendMailPrepare (buffer : DynamicBuffer) (startTls : Bool)
    (localHost login password from' to' subject text : CString) : Option Mail :=
  (putBase64 buffer login.bytes).bind fun (login, buffer) =>
    (putBase64 buffer password.bytes).bind fun (password, buffer) =>
      (block (writeField "EHLO " localHost.bytes "\r\n") buffer).bind fun (ehlo, buffer) =>
        (block (writeField "MAIL From: <" from'.bytes ">\r\n") buffer).bind fun (mailFrom, buffer) =>
          (block (writeField "RCPT To: <" to'.bytes ">\r\n") buffer).bind fun (rcptTo, buffer) =>
            (block (writeText from'.bytes to'.bytes subject.bytes text.bytes) buffer).map
              fun (message, buffer) =>
                ⟨buffer, startTls, ehlo, login, password, mailFrom, rcptTo, message⟩

/-! ### Receiving -/

/-- The lines of a message as a receiver gets them, and what is left: a line ends with CRLF, a line with
one dot is the end, and a dot at the start of any other line is removed. `line` has been read already. -/
def receive : List UInt8 → List UInt8 → Option (List (List UInt8) × List UInt8)
  | line, 13 :: 10 :: rest =>
    if line = [46] then some ([], rest)
    else (receive [] rest).map fun (lines, left) =>
      ((if line.head? = some 46 then line.tail else line) :: lines, left)
  | line, c :: rest => receive (line ++ [c]) rest
  | _, [] => none

/-- The lines of a text: CRLF, CR and LF end one, and so does the end if it is not empty. -/
def textLines : List UInt8 → List UInt8 → List (List UInt8)
  | line, 13 :: 10 :: rest => line :: textLines [] rest
  | line, c :: rest => if c = 13 ∨ c = 10 then line :: textLines [] rest else textLines (line ++ [c]) rest
  | line, [] => if line = [] then [] else [line]

/-- Every CR and every LF is in a CRLF. -/
def Paired : List UInt8 → Prop
  | 13 :: 10 :: rest => Paired rest
  | c :: rest => c ≠ 13 ∧ c ≠ 10 ∧ Paired rest
  | [] => True

/-- `bytes` is one line, with its CRLF at the end and no CR or LF before. -/
def IsLine (bytes line : List UInt8) : Prop := bytes = line ++ [13, 10] ∧ 13 ∉ line ∧ 10 ∉ line

/-- What is left of a string without CR and LF. -/
def noCrlf (data : List UInt8) : List UInt8 := data.filter notBreak

/-- A line with its first dot doubled. -/
def stuff (line : List UInt8) : List UInt8 := if line.head? = some 46 then 46 :: line else line

/-- Lines, one after the other. -/
def wire (lines : List (List UInt8)) : List UInt8 := lines.flatMap (· ++ [13, 10])

variable {line rest : List UInt8}

theorem receive_line {acc : List UInt8} (hcr : 13 ∉ line) :
    receive acc (line ++ 13 :: 10 :: rest) =
      if acc ++ line = [46] then some ([], rest)
      else (receive [] rest).map fun (lines, left) =>
        ((if (acc ++ line).head? = some 46 then (acc ++ line).tail else acc ++ line) :: lines, left) := by
  induction line generalizing acc with
  | nil => rw [nil_append, append_nil, receive]
  | cons c line ih =>
    rw [mem_cons, not_or] at hcr
    have hstep : receive acc (c :: line ++ 13 :: 10 :: rest) =
        receive (acc ++ [c]) (line ++ 13 :: 10 :: rest) := by
      rw [cons_append, receive]
      intro rest' hc
      exact absurd hc.symm hcr.1
    rw [hstep, ih hcr.2, append_assoc, singleton_append]

theorem paired_line (hcr : 13 ∉ line) (hlf : 10 ∉ line) :
    Paired (line ++ 13 :: 10 :: rest) ↔ Paired rest := by
  induction line with
  | nil => rw [nil_append, Paired]
  | cons c line ih =>
    rw [mem_cons, not_or] at hcr hlf
    rw [cons_append, Paired, ih hcr.2 hlf.2]
    · exact ⟨fun h => h.2.2, fun h => ⟨Ne.symm hcr.1, Ne.symm hlf.1, h⟩⟩
    · intro rest' hc
      exact absurd hc.symm hcr.1

@[simp] theorem wire_cons (line : List UInt8) (lines : List (List UInt8)) :
    wire (line :: lines) = line ++ 13 :: 10 :: wire lines := by
  rw [wire, flatMap_cons, append_assoc]
  rfl

theorem stuff_ne_dot (line : List UInt8) : stuff line ≠ [46] := by
  rw [stuff]
  split
  · next hdot =>
    intro heq
    rw [(List.cons.inj heq).2] at hdot
    cases hdot
  · next hdot =>
    rintro rfl
    exact hdot rfl

/-- The receiver removes the dot that was put there. -/
theorem unstuff_stuff (line : List UInt8) :
    (if (stuff line).head? = some 46 then (stuff line).tail else stuff line) = line := by
  rw [stuff]
  split
  · rfl
  · rfl

theorem not_mem_stuff {c : UInt8} (hc : c ≠ 46) (h : c ∉ line) : c ∉ stuff line := by
  rw [stuff]
  split
  · rw [mem_cons, not_or]
    exact ⟨hc, h⟩
  · exact h

/-- **The receiver gets the lines**, and stops behind the end mark. -/
theorem receive_wire {lines : List (List UInt8)} (hcr : ∀ line ∈ lines, 13 ∉ line) :
    receive [] (wire (lines.map stuff ++ [[46]])) = some (lines, []) := by
  induction lines with
  | nil => rfl
  | cons line lines ih =>
    rw [forall_mem_cons] at hcr
    rw [map_cons, cons_append, wire_cons, receive_line (not_mem_stuff (by decide) hcr.1), ih hcr.2,
      nil_append, if_neg (stuff_ne_dot line), unstuff_stuff]
    rfl

theorem paired_wire {lines : List (List UInt8)} (h : ∀ line ∈ lines, 13 ∉ line ∧ 10 ∉ line) :
    Paired (wire lines) := by
  induction lines with
  | nil => trivial
  | cons line lines ih =>
    rw [forall_mem_cons] at h
    rw [wire_cons, paired_line h.1.1 h.1.2]
    exact ih h.2

/-! ### Lines of a text -/

theorem notBreak_iff {c : UInt8} : notBreak c = true ↔ c ≠ 13 ∧ c ≠ 10 := by
  simp [notBreak]

/-- The text is gone through in lines. -/
theorem textLines_eq {p : List UInt8} (h : line ++ p ≠ []) :
    textLines line p = (line ++ p.takeWhile notBreak) :: textLines [] (afterLine p) := by
  fun_induction textLines line p with
  | case1 line rest ih =>
    have htake : (13 :: 10 :: rest).takeWhile notBreak = [] := rfl
    have hafter : afterLine (13 :: 10 :: rest) = rest := rfl
    rw [htake, hafter, append_nil]
  | case2 line c rest hnot hbreak ih =>
    have hstop : notBreak c = false := by
      rcases hbreak with rfl | rfl
      · rfl
      · rfl
    have hafter : afterLine (c :: rest) = rest := by
      rw [afterLine, dropWhile_cons_of_neg (by rw [hstop]; exact Bool.false_ne_true)]
      rcases hbreak with rfl | rfl
      · rw [skip_cons_self, skip]
        refine if_neg fun hhead => ?_
        obtain ⟨rest', rfl⟩ := head?_eq_some_iff.mp hhead
        exact hnot rest' rfl rfl
      · rw [skip_cons_of_ne (by decide), skip_cons_self]
    rw [takeWhile_cons_of_neg (by rw [hstop]; exact Bool.false_ne_true), hafter, append_nil]
  | case3 line c rest hnot hbreak ih =>
    have hgo : notBreak c = true := notBreak_iff.mpr (not_or.mp hbreak)
    have hafter : afterLine (c :: rest) = afterLine rest := by
      rw [afterLine, dropWhile_cons_of_pos hgo, afterLine]
    rw [ih (by simp), takeWhile_cons_of_pos hgo, hafter, append_assoc, singleton_append]
  | case4 => exact absurd rfl h
  | case5 line hline =>
    rw [takeWhile_nil, append_nil]
    rfl

theorem mem_textLines {p : List UInt8} (hline : 13 ∉ line ∧ 10 ∉ line) :
    ∀ l ∈ textLines line p, 13 ∉ l ∧ 10 ∉ l := by
  fun_induction textLines line p with
  | case1 line rest ih => exact forall_mem_cons.mpr ⟨hline, ih ⟨not_mem_nil, not_mem_nil⟩⟩
  | case2 line c rest hnot hbreak ih =>
    exact forall_mem_cons.mpr ⟨hline, ih ⟨not_mem_nil, not_mem_nil⟩⟩
  | case3 line c rest hnot hbreak ih =>
    refine ih ?_
    rw [not_or] at hbreak
    simp [hline, Ne.symm hbreak.1, Ne.symm hbreak.2]
  | case4 => nofun
  | case5 line hne => exact forall_mem_singleton.mpr hline

/-! ### What is written -/

/-- `putBase64` writes the text in base64 and a CRLF. -/
theorem putBase64_eq (data : CString) (buffer : DynamicBuffer) :
    putBase64 buffer data.bytes = block (dynamicBufferWrite · (base64 data.bytes ++ [13, 10])) buffer := by
  have hlength : base64getEncodeLength data.bytes.length + 1 = (base64 data.bytes ++ [13, 10]).length := by
    rw [base64getEncodeLength_eq data.fits, length_append]
    rfl
  have hfill (m : Memory) (ptr : ℕ) (text : List UInt8) :
      fill (fill (fill m ptr (text ++ [0])) (ptr + text.length) [13]) (ptr + text.length + 1) [10] =
        fill m ptr (text ++ [13, 10]) := by
    have hcrlf := fill_fill (fill m ptr text) (ptr + text.length) [13] [10]
    rw [← fill_fill m ptr text [0], fill_overwrite _ _ (by simp), ← fill_fill m ptr text [13, 10]]
    exact hcrlf
  rw [putBase64, block, dynamicBufferWrite, Option.map_map, hlength, base64Encode_eq]
  cases hgrow : dynamicBufferGrow buffer (base64 data.bytes ++ [13, 10]).length with
  | none => rw [dynamicBufferAlloc, hgrow]; rfl
  | some grown =>
    obtain ⟨rfl, -⟩ := dynamicBufferGrow_some hgrow
    rw [dynamicBufferAlloc, hgrow]
    simp only [map_some, Function.comp_apply, hfill, Nat.add_sub_cancel_left, length_append,
      length_cons, length_nil]

/-- What `dynamicBufferWriteNoCrlf` does after a run. -/
theorem dynamicBufferWriteNoCrlf_eq (buffer : DynamicBuffer) (data : List UInt8) :
    dynamicBufferWriteNoCrlf buffer data =
      (dynamicBufferWrite buffer (data.takeWhile notBreak)).bind fun buffer =>
        match data.dropWhile notBreak with
        | [] => some buffer
        | _ :: rest => dynamicBufferWriteNoCrlf buffer rest := by
  rw [dynamicBufferWriteNoCrlf]
  congr 1
  funext buffer
  split
  · next heq => rw [heq]
  · next heq => rw [heq]

theorem appends_writeNoCrlf (data : List UInt8) :
    Appends (dynamicBufferWriteNoCrlf · data) (noCrlf data) := by
  induction hk : data.length using Nat.strong_induction_on generalizing data with
  | _ k ih =>
  have hrun := appends_write (data.takeWhile notBreak)
  have hnoCrlf : noCrlf data = data.takeWhile notBreak ++ noCrlf (data.dropWhile notBreak) := by
    conv => lhs; rw [noCrlf, ← takeWhile_append_dropWhile (p := notBreak) (l := data), filter_append]
    rw [filter_eq_self.mpr (all_eq_true.mp all_takeWhile)]
    rfl
  have hle := (dropWhile_suffix (l := data) notBreak).length_le
  simp only [dynamicBufferWriteNoCrlf_eq _ data]
  rw [hnoCrlf]
  cases hdrop : data.dropWhile notBreak with
  | nil => exact hrun.bind appends_some
  | cons c rest =>
    have hbreak := notBreak_of_dropWhile hdrop
    have hskip : noCrlf (c :: rest) = noCrlf rest := by
      rw [noCrlf, filter_cons_of_neg (by rw [hbreak]; exact Bool.false_ne_true), noCrlf]
    rw [hdrop, length_cons] at hle
    rw [hskip]
    exact hrun.bind (ih rest.length (by omega) rest rfl)

theorem appends_mailBodyLoop (p : List UInt8) :
    Appends (mailBodyLoop · p) (wire ((textLines [] p).map stuff)) := by
  induction hk : p.length using Nat.strong_induction_on generalizing p with
  | _ k ih =>
  cases p with
  | nil =>
    simp only [mailBodyLoop]
    exact appends_some
  | cons c p =>
    simp only [mailBodyLoop]
    have hdot : Appends (fun buffer => if c = 46 then dynamicBufferWrite buffer [46] else some buffer)
        (if c = 46 then [46] else []) := by
      split
      · exact appends_write [46]
      · exact appends_some
    have hstuff : stuff ((c :: p).takeWhile notBreak) =
        (if c = 46 then [46] else []) ++ (c :: p).takeWhile notBreak := by
      by_cases hbreak : notBreak c = true
      · rw [stuff, takeWhile_cons_of_pos hbreak]
        simp only [head?_cons, Option.some.injEq]
        split
        · rfl
        · rfl
      · have hne : c ≠ 46 := by
          rintro rfl
          exact hbreak rfl
        rw [takeWhile_cons_of_neg hbreak, if_neg hne]
        rfl
    have hrest := ih _ (hk ▸ length_afterLine_lt (cons_ne_nil c p)) (afterLine (c :: p)) rfl
    rw [textLines_eq (cons_ne_nil c p), nil_append, map_cons, wire_cons, hstuff, append_assoc]
    exact hdot.bind ((appends_write _).bind ((appends_write [13, 10]).bind hrest))

theorem appends_mailBody (text : List UInt8) :
    Appends (dynamicBufferWriteMailBody · text) (wire ((textLines [] text).map stuff ++ [[46]])) := by
  have hwire : wire ((textLines [] text).map stuff ++ [[46]]) =
      wire ((textLines [] text).map stuff) ++ [46, 13, 10] := by
    rw [wire, flatMap_append]
    rfl
  rw [hwire]
  exact (appends_mailBodyLoop text).bind (appends_write _)

theorem appends_writeField (before : String) (data : List UInt8) (after : String) :
    Appends (writeField before data after) (ascii before ++ (noCrlf data ++ ascii after)) :=
  (appends_write _).bind ((appends_writeNoCrlf data).bind (appends_write _))

/-- The lines of a message, with those of its header. -/
def messageLines (from' to' subject text : List UInt8) : List (List UInt8) :=
  [ascii "From: " ++ noCrlf from', ascii "To: " ++ noCrlf to', ascii "Subject: " ++ noCrlf subject, []] ++
    textLines [] text

/-- **The message as it is written**: its lines with their dots doubled, and the end mark. -/
theorem appends_writeText (from' to' subject text : List UInt8) :
    Appends (writeText from' to' subject text)
      (wire ((messageLines from' to' subject text).map stuff ++ [[46]])) := by
  have hwire : wire ((messageLines from' to' subject text).map stuff ++ [[46]]) =
      (ascii "From: " ++ (noCrlf from' ++ ascii "\r\n")) ++ ((ascii "To: " ++ (noCrlf to' ++ ascii "\r\n")) ++
        ((ascii "Subject: " ++ (noCrlf subject ++ ascii "\r\n\r\n")) ++
          wire ((textLines [] text).map stuff ++ [[46]]))) := by
    -- no line of the header begins with a dot
    have hfrom : stuff (ascii "From: " ++ noCrlf from') = ascii "From: " ++ noCrlf from' := rfl
    have hto : stuff (ascii "To: " ++ noCrlf to') = ascii "To: " ++ noCrlf to' := rfl
    have hsubject : stuff (ascii "Subject: " ++ noCrlf subject) = ascii "Subject: " ++ noCrlf subject := rfl
    have hempty : stuff [] = [] := rfl
    have hcrlf : ascii "\r\n" = [13, 10] := rfl
    have hcrlfs : ascii "\r\n\r\n" = [13, 10, 13, 10] := rfl
    simp only [messageLines, map_cons, cons_append, nil_append, append_assoc, wire_cons,
      hfrom, hto, hsubject, hempty, hcrlf, hcrlfs]
  rw [hwire]
  exact (appends_writeField _ _ _).bind ((appends_writeField _ _ _).bind
    ((appends_writeField _ _ _).bind (appends_mailBody text)))

/-! ### The whole transaction -/

/-- What a block writes, and where. -/
theorem block_some {f : DynamicBuffer → Option DynamicBuffer} {bytes : List UInt8} (hf : Appends f bytes)
    {buffer buffer' : DynamicBuffer} {part : Slice} (h : block f buffer = some (part, buffer'))
    (hsize : buffer.size = buffer.offset) :
    part = ⟨buffer.offset, bytes.length⟩ ∧ buffer'.offset = buffer.offset + bytes.length ∧
      buffer'.size = buffer'.offset ∧ buffer'.data = fill buffer.data buffer.offset bytes := by
  obtain ⟨written, hwritten, heq⟩ := map_eq_some_iff.mp h
  obtain ⟨rfl, rfl⟩ := Prod.mk.inj heq
  obtain ⟨hoffset, hsize', hdata⟩ := hf.stored hwritten hsize
  refine ⟨?_, hoffset, hsize', hdata⟩
  rw [hoffset, Nat.add_sub_cancel_left]

/-- The bytes of a part. -/
def Mail.bytes (mail : Mail) (part : Slice) : List UInt8 := slice mail.buffer.data part.offset part.size

variable {data : Memory} {startTls : Bool} {localHost login password from' to' subject text : CString}

/-- The parts are where the mail says, one after the other. -/
theorem bytes_smtpSendMailPrepare {mail : Mail}
    (h : smtpSendMailPrepare (dynamicBufferInit data 1024) startTls localHost login password from' to'
      subject text = some mail) :
    mail.bytes mail.login = base64 login.bytes ++ [13, 10] ∧
      mail.bytes mail.password = base64 password.bytes ++ [13, 10] ∧
      mail.bytes mail.ehlo = ascii "EHLO " ++ (noCrlf localHost.bytes ++ ascii "\r\n") ∧
      mail.bytes mail.from' = ascii "MAIL From: <" ++ (noCrlf from'.bytes ++ ascii ">\r\n") ∧
      mail.bytes mail.to' = ascii "RCPT To: <" ++ (noCrlf to'.bytes ++ ascii ">\r\n") ∧
      mail.bytes mail.text =
        wire ((messageLines from'.bytes to'.bytes subject.bytes text.bytes).map stuff ++ [[46]]) := by
  rw [smtpSendMailPrepare, putBase64_eq] at h
  obtain ⟨⟨loginPart, b₁⟩, h₁, h⟩ := bind_eq_some_iff.mp h
  dsimp only at h
  rw [putBase64_eq] at h
  obtain ⟨⟨passwordPart, b₂⟩, h₂, h⟩ := bind_eq_some_iff.mp h
  obtain ⟨⟨ehloPart, b₃⟩, h₃, h⟩ := bind_eq_some_iff.mp h
  obtain ⟨⟨fromPart, b₄⟩, h₄, h⟩ := bind_eq_some_iff.mp h
  obtain ⟨⟨toPart, b₅⟩, h₅, h⟩ := bind_eq_some_iff.mp h
  obtain ⟨⟨textPart, b₆⟩, h₆, rfl⟩ := map_eq_some_iff.mp h
  obtain ⟨rfl, hoffset₁, hsize₁, hdata₁⟩ := block_some (appends_write _) h₁ rfl
  obtain ⟨rfl, hoffset₂, hsize₂, hdata₂⟩ := block_some (appends_write _) h₂ hsize₁
  obtain ⟨rfl, hoffset₃, hsize₃, hdata₃⟩ := block_some (appends_writeField _ _ _) h₃ hsize₂
  obtain ⟨rfl, hoffset₄, hsize₄, hdata₄⟩ := block_some (appends_writeField _ _ _) h₄ hsize₃
  obtain ⟨rfl, hoffset₅, hsize₅, hdata₅⟩ := block_some (appends_writeField _ _ _) h₅ hsize₄
  obtain ⟨rfl, -, -, hdata₆⟩ := block_some (appends_writeText _ _ _ _) h₆ hsize₅
  rw [hdata₅, hoffset₅, fill_fill, hdata₄, hoffset₄, fill_fill, hdata₃, hoffset₃, fill_fill, hdata₂, hoffset₂,
    fill_fill, hdata₁, hoffset₁, fill_fill] at hdata₆
  have hslice := congrArg (slice · _ _) hdata₆ |>.trans (slice_fill _ _ _)
  obtain ⟨hlogin, hslice⟩ := slice_append_iff.mp hslice
  rw [← hoffset₁] at hslice
  obtain ⟨hpassword, hslice⟩ := slice_append_iff.mp hslice
  rw [← hoffset₂] at hslice
  obtain ⟨hehlo, hslice⟩ := slice_append_iff.mp hslice
  rw [← hoffset₃] at hslice
  obtain ⟨hfrom, hslice⟩ := slice_append_iff.mp hslice
  rw [← hoffset₄] at hslice
  obtain ⟨hto, htext⟩ := slice_append_iff.mp hslice
  rw [← hoffset₅] at htext
  exact ⟨hlogin, hpassword, hehlo, hfrom, hto, htext⟩

theorem block_isSome {f : DynamicBuffer → Option DynamicBuffer} {bytes : List UInt8} (hf : Appends f bytes)
    {buffer : DynamicBuffer} (hvalid : buffer.Valid) (hsize : buffer.size = buffer.offset)
    (hfew : buffer.offset + bytes.length ≤ 2 ^ 61) :
    ∃ part buffer', block f buffer = some (part, buffer') ∧ buffer'.Valid ∧
      buffer'.size = buffer'.offset ∧ buffer'.offset = buffer.offset + bytes.length := by
  obtain ⟨buffer', hbuffer'⟩ := isSome_iff_exists.mp (hf.isSome hvalid hsize hfew)
  obtain ⟨hoffset, hsize', -⟩ := hf.stored hbuffer' hsize
  exact ⟨_, buffer', by rw [block, hbuffer']; rfl, hf.valid hbuffer' hvalid, hsize', hoffset⟩

/-- All that is written for a mail. -/
def transaction (localHost login password from' to' subject text : CString) : List (List UInt8) :=
  [base64 login.bytes ++ [13, 10], base64 password.bytes ++ [13, 10],
    ascii "EHLO " ++ (noCrlf localHost.bytes ++ ascii "\r\n"),
    ascii "MAIL From: <" ++ (noCrlf from'.bytes ++ ascii ">\r\n"),
    ascii "RCPT To: <" ++ (noCrlf to'.bytes ++ ascii ">\r\n"),
    wire ((messageLines from'.bytes to'.bytes subject.bytes text.bytes).map stuff ++ [[46]])]

/-- There is room for a mail that is not enormous. -/
theorem isSome_smtpSendMailPrepare (data : Memory) (startTls : Bool)
    (localHost login password from' to' subject text : CString)
    (hfew : (transaction localHost login password from' to' subject text).flatten.length ≤ 2 ^ 61) :
    (smtpSendMailPrepare (dynamicBufferInit data 1024) startTls localHost login password from' to' subject
      text).isSome := by
  have hvalid : (dynamicBufferInit data 1024).Valid := ⟨Nat.zero_le _, show 1024 ≤ ptrdiffMax by decide⟩
  have hzero : (dynamicBufferInit data 1024).offset = 0 := rfl
  rw [length_flatten, transaction] at hfew
  simp only [map_cons, map_nil, sum_cons, sum_nil] at hfew
  obtain ⟨p₁, b₁, h₁, hvalid₁, hsize₁, hoffset₁⟩ := block_isSome
    (appends_write (base64 login.bytes ++ [13, 10])) hvalid rfl (by omega)
  obtain ⟨p₂, b₂, h₂, hvalid₂, hsize₂, hoffset₂⟩ := block_isSome
    (appends_write (base64 password.bytes ++ [13, 10])) hvalid₁ hsize₁ (by omega)
  obtain ⟨p₃, b₃, h₃, hvalid₃, hsize₃, hoffset₃⟩ := block_isSome
    (appends_writeField "EHLO " localHost.bytes "\r\n") hvalid₂ hsize₂ (by omega)
  obtain ⟨p₄, b₄, h₄, hvalid₄, hsize₄, hoffset₄⟩ := block_isSome
    (appends_writeField "MAIL From: <" from'.bytes ">\r\n") hvalid₃ hsize₃ (by omega)
  obtain ⟨p₅, b₅, h₅, hvalid₅, hsize₅, hoffset₅⟩ := block_isSome
    (appends_writeField "RCPT To: <" to'.bytes ">\r\n") hvalid₄ hsize₄ (by omega)
  obtain ⟨p₆, b₆, h₆, -⟩ := block_isSome
    (appends_writeText from'.bytes to'.bytes subject.bytes text.bytes) hvalid₅ hsize₅ (by omega)
  rw [smtpSendMailPrepare, putBase64_eq, h₁, bind_some]
  dsimp only
  rw [putBase64_eq, h₂, bind_some]
  dsimp only
  rw [h₃, bind_some]
  dsimp only
  rw [h₄, bind_some]
  dsimp only
  rw [h₅, bind_some]
  dsimp only
  rw [h₆]
  rfl

theorem not_mem_noCrlf (data : List UInt8) : 13 ∉ noCrlf data ∧ 10 ∉ noCrlf data := by
  simp [noCrlf, notBreak]

/-- A line of a text, a string without CR and LF and an end. -/
theorem isLine_field (before data after : List UInt8)
    (hbefore : 13 ∉ before ∧ 10 ∉ before) (hafter : 13 ∉ after ∧ 10 ∉ after) :
    IsLine (before ++ (noCrlf data ++ (after ++ [13, 10]))) (before ++ noCrlf data ++ after) := by
  obtain ⟨hcr, hlf⟩ := not_mem_noCrlf data
  refine ⟨by simp only [append_assoc], ?_, ?_⟩
  · simp [hbefore.1, hafter.1, hcr]
  · simp [hbefore.2, hafter.2, hlf]

theorem mem_messageLines (from' to' subject text : List UInt8) :
    ∀ line ∈ messageLines from' to' subject text, 13 ∉ line ∧ 10 ∉ line := by
  have hfield (before data : List UInt8) (hbefore : 13 ∉ before ∧ 10 ∉ before) :
      13 ∉ before ++ noCrlf data ∧ 10 ∉ before ++ noCrlf data := by
    simp [hbefore, not_mem_noCrlf data]
  have hnil : (13 : UInt8) ∉ ([] : List UInt8) ∧ (10 : UInt8) ∉ ([] : List UInt8) := by decide
  rw [messageLines, forall_mem_append]
  refine ⟨?_, mem_textLines hnil⟩
  rw [forall_mem_cons, forall_mem_cons, forall_mem_cons, forall_mem_singleton]
  exact ⟨hfield _ from' (by decide), hfield _ to' (by decide), hfield _ subject (by decide), hnil⟩

theorem isLine_base64 (data : List UInt8) : IsLine (base64 data ++ [13, 10]) (base64 data) := by
  refine ⟨rfl, fun hmem => ?_, fun hmem => ?_⟩
  · exact absurd (base64_ge data 13 hmem) (by decide)
  · exact absurd (base64_ge data 10 hmem) (by decide)

/-- **A mail is what the caller gave, and nothing else.** Each of the parts before the message is one line,
with the string of the caller in it. From the message, a receiver gets the header, an empty line and the
lines of the text, and stops at its end; and there is no CR and no LF in it but in a CRLF. -/
theorem mail_transparent (data : Memory) (startTls : Bool)
    (localHost login password from' to' subject text : CString) {mail : Mail}
    (h : smtpSendMailPrepare (dynamicBufferInit data 1024) startTls localHost login password from' to'
      subject text = some mail) :
    IsLine (mail.bytes mail.ehlo) (ascii "EHLO " ++ noCrlf localHost.bytes) ∧
      IsLine (mail.bytes mail.login) (base64 login.bytes) ∧
      IsLine (mail.bytes mail.password) (base64 password.bytes) ∧
      IsLine (mail.bytes mail.from') (ascii "MAIL From: <" ++ noCrlf from'.bytes ++ ascii ">") ∧
      IsLine (mail.bytes mail.to') (ascii "RCPT To: <" ++ noCrlf to'.bytes ++ ascii ">") ∧
      receive [] (mail.bytes mail.text) =
        some ([ascii "From: " ++ noCrlf from'.bytes, ascii "To: " ++ noCrlf to'.bytes,
          ascii "Subject: " ++ noCrlf subject.bytes, []] ++ textLines [] text.bytes, []) ∧
      Paired (mail.bytes mail.text) := by
  obtain ⟨hlogin, hpassword, hehlo, hfrom, hto, htext⟩ := bytes_smtpSendMailPrepare h
  have hlines : ∀ line ∈ messageLines from'.bytes to'.bytes subject.bytes text.bytes, 13 ∉ line ∧ 10 ∉ line :=
    mem_messageLines _ _ _ _
  rw [hlogin, hpassword, hehlo, hfrom, hto, htext]
  refine ⟨?_, isLine_base64 _, isLine_base64 _, ?_, ?_, receive_wire fun line hline => (hlines line hline).1, ?_⟩
  · have hline := isLine_field (ascii "EHLO ") localHost.bytes [] (by decide) (by decide)
    rwa [append_nil] at hline
  · exact isLine_field (ascii "MAIL From: <") from'.bytes (ascii ">") (by decide) (by decide)
  · exact isLine_field (ascii "RCPT To: <") to'.bytes (ascii ">") (by decide) (by decide)
  · refine paired_wire fun line hline => ?_
    rcases mem_append.mp hline with hline | hline
    · obtain ⟨line, hmem, rfl⟩ := mem_map.mp hline
      exact (hlines line hmem).imp (not_mem_stuff (by decide)) (not_mem_stuff (by decide))
    · rw [mem_singleton.mp hline]
      decide

/-- A message with a dot, and an address that tries to add a recipient. -/
theorem mail_transparent_dot :
    ∃ mail, smtpSendMailPrepare (dynamicBufferInit (fun _ => 0) 1024) true ⟨ascii "me", by decide, by decide⟩
        ⟨ascii "user", by decide, by decide⟩ ⟨ascii "secret", by decide, by decide⟩
        ⟨ascii "a@b>\r\nRCPT To: <c@d", by decide, by decide⟩ ⟨ascii "e@f", by decide, by decide⟩
        ⟨ascii "Hi", by decide, by decide⟩ ⟨ascii ".\nend", by decide, by decide⟩ = some mail ∧
      IsLine (mail.bytes mail.from') (ascii "MAIL From: <a@b>RCPT To: <c@d>") ∧
      receive [] (mail.bytes mail.text) = some ([ascii "From: a@b>RCPT To: <c@d", ascii "To: e@f",
        ascii "Subject: Hi", [], ascii ".", ascii "end"], []) := by
  obtain ⟨mail, hmail⟩ := isSome_iff_exists.mp (isSome_smtpSendMailPrepare (fun _ => 0) true
    ⟨ascii "me", by decide, by decide⟩ ⟨ascii "user", by decide, by decide⟩
    ⟨ascii "secret", by decide, by decide⟩ ⟨ascii "a@b>\r\nRCPT To: <c@d", by decide, by decide⟩
    ⟨ascii "e@f", by decide, by decide⟩ ⟨ascii "Hi", by decide, by decide⟩
    ⟨ascii ".\nend", by decide, by decide⟩ (by decide +kernel))
  obtain ⟨-, -, -, hfrom, -, hreceive, -⟩ := mail_transparent (fun _ => 0) true _ _ _ _ _ _ _ hmail
  exact ⟨mail, hmail, hfrom, hreceive⟩

end Smtp

end Asyncio

import Asyncio.Wire.Bytes

/-!
# Replies of a server

`smtpTryParse` looks for a reply at the start of what is in the buffer of the client. A reply has one or more
lines, which end with CRLF and begin with the same code of three digits. All but the last have a `-` after
the code. The texts of several lines are moved together in the buffer, over what was read of them, and end
with a NUL there; what follows the reply in the buffer is not touched.

A pointer into the buffer is its offset. `op->Response` is the list of its bytes, the NUL included.

## Main definitions

* `Reply`, `Reply.encode` — a reply and its bytes
* `Scans` — what the lines at the start of some bytes come to

## Main results

* `Scans.unique` — they come to one thing
* `smtpTryParse_looks` — what is found in the buffer
-/

namespace Asyncio

namespace Smtp

open Wire List

/-! ### Code -/

/-- `sizeof(client->buffer)` -/
def bufferSize : ℕ := 8192

/-- `client->buffer`, `client->ptr` and `client->end`. -/
structure ReplyBuffer where
  buffer : Memory
  ptr : ℕ
  limit : ℕ

/-- `isDigit` -/
def isDigit (c : UInt8) : Bool := 48 ≤ c && c ≤ 57

/-- `isDigits` -/
def isDigits (m : Memory) (s size : ℕ) : Bool := (slice m s size).all isDigit

/-- `atoi`, of digits. -/
def atoi (digits : List UInt8) : ℕ := digits.foldl (fun n c => n * 10 + (c.toNat - 48)) 0

/-- `memchr(p, '\n', n)` -/
def memchr (m : Memory) (p n : ℕ) : Option ℕ :=
  let before := ((slice m p n).takeWhile (· ≠ 10)).length
  if before < n then some (p + before) else none

/-- The string at `p`, which has its NUL before `limit`. -/
def stringAt (m : Memory) (p limit : ℕ) : List UInt8 := (slice m p (limit - p)).takeWhile (· ≠ 0)

variable {m : Memory}

/-- `memchr` finds the end of the first line, if it is there. -/
theorem memchr_eq {p n : ℕ} {line rest : List UInt8} (h : slice m p n = line ++ 10 :: rest)
    (hline : 10 ∉ line) : memchr m p n = some (p + line.length) := by
  have hlength := congrArg List.length h
  rw [length_slice, length_append, length_cons] at hlength
  have hall : ∀ c ∈ line, decide (c ≠ 10) = true := fun c hc =>
    decide_eq_true (ne_of_mem_of_not_mem hc hline)
  rw [memchr, h, takeWhile_append_of_pos hall, takeWhile_cons_of_neg (by decide), append_nil,
    if_pos (by omega)]

/-- `memchr` goes over what has no LF. -/
theorem memchr_skip {p n k : ℕ} (h : 10 ∉ slice m p k) (hk : k ≤ n) :
    memchr m p n = memchr m (p + k) (n - k) := by
  obtain ⟨j, rfl⟩ := Nat.exists_eq_add_of_le hk
  have hall : ∀ c ∈ slice m p k, decide (c ≠ 10) = true := fun c hc =>
    decide_eq_true (ne_of_mem_of_not_mem hc h)
  rw [memchr, memchr, slice_add, takeWhile_append_of_pos hall, length_append, length_slice,
    Nat.add_sub_cancel_left, Nat.add_assoc]
  simp only [Nat.add_lt_add_iff_left]

theorem memchr_none {p n : ℕ} (h : 10 ∉ slice m p n) : memchr m p n = none := by
  rw [memchr_skip h (Nat.le_refl n), Nat.sub_self]
  rfl

theorem memchr_self {p n : ℕ} (h : m p = 10) (hn : 0 < n) : memchr m p n = some p := by
  obtain ⟨k, rfl⟩ := Nat.exists_eq_add_of_le hn
  have hslice : slice m p (0 + 1 + k) = [] ++ 10 :: slice m (p + 1) k := by
    rw [Nat.zero_add, slice_add, slice_one, h]
    rfl
  exact memchr_eq hslice nofun

/-- A list has a first line, or no LF. -/
theorem line_or_open (l : List UInt8) : 10 ∉ l ∨ ∃ line rest, l = line ++ 10 :: rest ∧ 10 ∉ line := by
  by_cases hmem : 10 ∈ l
  · exact .inr (eq_append_cons_of_mem hmem)
  · exact .inl hmem

theorem memchr_some {p n lf : ℕ} (h : memchr m p n = some lf) : p ≤ lf ∧ lf < p + n := by
  rw [memchr] at h
  split at h
  · next hlt =>
    have heq := Option.some.inj h
    omega
  · cases h

/-- What the search for the last line of a reply comes to. -/
inductive LastLine
  | pending
  | invalidFormat
  | found (linesCount : ℕ)

/-- A line that does not go on a reply with the code `code`. -/
def badLine (m : Memory) (code : List UInt8) (p lf : ℕ) : Prop :=
  lf - p < 4 ∨ m (lf - 1) ≠ 13 ∨ slice m p 3 ≠ code ∨
    (m (p + 3) ≠ 45 ∧ m (p + 3) ≠ 32 ∧ (m (p + 3) ≠ 13 ∨ lf ≠ p + 4))

instance (m : Memory) (code : List UInt8) (p lf : ℕ) : Decidable (badLine m code p lf) := by
  unfold badLine
  infer_instance

/-- The first loop of `smtpTryParse`. -/
def findLastLine (m : Memory) (limit : ℕ) (code : List UInt8) (p linesCount : ℕ) : LastLine :=
  match _h : memchr m p (limit - p) with
  | none => .pending
  | some lf =>
    if badLine m code p lf then .invalidFormat
    else if m (p + 3) ≠ 45 then .found (linesCount + 1)
    else findLastLine m limit code (lf + 1) (linesCount + 1)
termination_by limit - p
decreasing_by
  have hbounds := memchr_some _h
  omega

/-- The second loop of `smtpTryParse`, which moves the texts together: the buffer, `p` and `out`. -/
def squash (m : Memory) (limit : ℕ) : ℕ → ℕ → ℕ → Memory × ℕ × ℕ
  | 0, p, out => (m, p, out)
  | lines + 1, p, out =>
    let lf := (memchr m p (limit - p)).getD 0
    let text := p + if m (p + 3) = 13 then 3 else 4
    let lineSize := lf - 1 - text
    let moved := fill m out (slice m text lineSize)
    squash (fill moved (out + lineSize) [10]) limit lines (lf + 1) (out + lineSize + 1)

/-- What `smtpTryParse` comes to; with a reply, the operation gets its code and its text. -/
inductive Parsed
  | pending
  | invalidFormat
  | success (resultCode : ℕ) (response : List UInt8) (client : ReplyBuffer)

/-- `smtpTryParse` -/
def smtpTryParse (client : ReplyBuffer) : Parsed :=
  let m := client.buffer
  let base := client.ptr
  if client.limit - base < 5 then .pending
  else if ¬isDigits m base 3 ∨
      (m (base + 3) ≠ 45 ∧ m (base + 3) ≠ 32 ∧ (m (base + 3) ≠ 13 ∨ m (base + 4) ≠ 10)) then .invalidFormat
  else
    let firstReplyCode := slice m base 3
    let resultCode := atoi firstReplyCode
    if m (base + 3) = 45 then
      match memchr m (base + 4) (client.limit - base - 4) with
      | none => .pending
      | some lf =>
        if m (lf - 1) ≠ 13 then .invalidFormat
        else
          match findLastLine m client.limit firstReplyCode (lf + 1) 1 with
          | .pending => .pending
          | .invalidFormat => .invalidFormat
          | .found linesCount =>
            let (m, p, out) := squash m client.limit linesCount base base
            let m := fill m out [0]
            .success resultCode (stringAt m base client.limit ++ [0]) { client with buffer := m, ptr := p }
    else if m (base + 3) = 13 then
      let m := fill m (base + 3) [0]
      .success resultCode (stringAt m (base + 3) client.limit ++ [0])
        { client with buffer := m, ptr := base + 5 }
    else
      match memchr m (base + 4) (client.limit - base - 4) with
      | none => .pending
      | some lf =>
        if m (lf - 1) ≠ 13 then .invalidFormat
        else
          let m := fill m (lf - 1) [0]
          .success resultCode (stringAt m (base + 4) client.limit ++ [0])
            { client with buffer := m, ptr := lf + 1 }

/-! ### Lines -/

/-- A line before the last one, without its LF. -/
def contLine (code text : List UInt8) : List UInt8 := code ++ 45 :: (text ++ [13])

/-- The last line, with a text or without, and without its LF. -/
def lastLine (code : List UInt8) : Option (List UInt8) → List UInt8
  | none => code ++ [13]
  | some text => code ++ 32 :: (text ++ [13])

/-- What the lines at the start of some bytes come to. -/
inductive Lines
  | more
  | bad
  | complete (texts : List (List UInt8)) (last : Option (List UInt8)) (rest : List UInt8)

/-- The same after one more line. -/
def Lines.after (text : List UInt8) : Lines → Lines
  | .complete texts last rest => .complete (text :: texts) last rest
  | lines => lines

/-- Reading lines with the code `code`. -/
inductive Scans (code : List UInt8) : List UInt8 → Lines → Prop
  | more {l : List UInt8} (h : 10 ∉ l) : Scans code l .more
  | bad {line : List UInt8} (rest : List UInt8) (h : 10 ∉ line) (hcont : ∀ text, line ≠ contLine code text)
      (hlast : ∀ text, line ≠ lastLine code text) : Scans code (line ++ 10 :: rest) .bad
  | last {text : Option (List UInt8)} (rest : List UInt8) (h : 10 ∉ lastLine code text) :
      Scans code (lastLine code text ++ 10 :: rest) (.complete [] text rest)
  | cont {text rest : List UInt8} {lines : Lines} (h : 10 ∉ contLine code text)
      (hrest : Scans code rest lines) : Scans code (contLine code text ++ 10 :: rest) (lines.after text)

variable {code line line' rest rest' text : List UInt8}

/-- There is one first line. -/
theorem line_inj (h : line ++ 10 :: rest = line' ++ 10 :: rest') (hline : 10 ∉ line) (hline' : 10 ∉ line') :
    line = line' ∧ rest = rest' := by
  induction line generalizing line' with
  | nil =>
    cases line' with
    | nil => exact ⟨rfl, (List.cons.inj h).2⟩
    | cons c line' => exact absurd (mem_cons.mpr (.inl (List.cons.inj h).1)) hline'
  | cons c line ih =>
    cases line' with
    | nil => exact absurd (mem_cons.mpr (.inl (List.cons.inj h).1.symm)) hline
    | cons c' line' =>
      obtain ⟨hc, htail⟩ := List.cons.inj h
      obtain ⟨hline, hrest⟩ := ih htail (fun hmem => hline (mem_cons_of_mem _ hmem))
        fun hmem => hline' (mem_cons_of_mem _ hmem)
      exact ⟨by rw [hc, hline], hrest⟩

theorem contLine_inj {text' : List UInt8} (h : contLine code text = contLine code text') : text = text' :=
  append_cancel_right (List.cons.inj (append_cancel_left h)).2

theorem lastLine_inj {text text' : Option (List UInt8)} (h : lastLine code text = lastLine code text') :
    text = text' := by
  cases text with
  | none =>
    cases text' with
    | none => rfl
    | some text' => exact absurd (List.cons.inj (append_cancel_left h)).1 (by decide)
  | some text =>
    cases text' with
    | none => exact absurd (List.cons.inj (append_cancel_left h)).1 (by decide)
    | some text' =>
      exact congrArg some (append_cancel_right (List.cons.inj (append_cancel_left h)).2)

variable {last : Option (List UInt8)}

theorem contLine_ne_lastLine : contLine code text ≠ lastLine code last := by
  intro h
  cases last with
  | none => exact absurd (List.cons.inj (append_cancel_left h)).1 (by decide)
  | some last => exact absurd (List.cons.inj (append_cancel_left h)).1 (by decide)

theorem Scans.inv_more {l : List UInt8} {lines : Lines} (h : Scans code l lines) (hl : 10 ∉ l) :
    lines = .more := by
  have hmem (line rest : List UInt8) : (10 : UInt8) ∈ line ++ 10 :: rest :=
    mem_append_right _ mem_cons_self
  cases h with
  | more => rfl
  | bad => exact absurd (hmem _ _) hl
  | last => exact absurd (hmem _ _) hl
  | cont => exact absurd (hmem _ _) hl

/-- What comes of a first line. -/
theorem Scans.inv_line {lines : Lines} (h : Scans code (line ++ 10 :: rest) lines) (hline : 10 ∉ line) :
    (lines = .bad ∧ (∀ text, line ≠ contLine code text) ∧ ∀ text, line ≠ lastLine code text) ∨
      (∃ text, line = lastLine code text ∧ lines = .complete [] text rest) ∨
      ∃ text lines', line = contLine code text ∧ Scans code rest lines' ∧ lines = lines'.after text := by
  generalize hl : line ++ 10 :: rest = l at h
  cases h with
  | more hnot =>
    rw [← hl] at hnot
    exact absurd (mem_append_right _ mem_cons_self) hnot
  | bad rest' h hcont hlast =>
    obtain ⟨rfl, rfl⟩ := line_inj hl hline h
    exact .inl ⟨rfl, hcont, hlast⟩
  | last rest' h =>
    obtain ⟨rfl, rfl⟩ := line_inj hl hline h
    exact .inr (.inl ⟨_, rfl, rfl⟩)
  | cont h hrest =>
    obtain ⟨rfl, rfl⟩ := line_inj hl hline h
    exact .inr (.inr ⟨_, _, rfl, hrest, rfl⟩)

/-- **The lines come to one thing.** -/
theorem Scans.unique {l : List UInt8} {lines lines' : Lines} (h : Scans code l lines)
    (h' : Scans code l lines') : lines = lines' := by
  induction h generalizing lines' with
  | more h => exact (h'.inv_more h).symm
  | bad rest h hcont hlast =>
    obtain ⟨rfl, -⟩ | ⟨text, heq, -⟩ | ⟨text, lines, heq, -⟩ := h'.inv_line h
    · rfl
    · exact absurd heq (hlast text)
    · exact absurd heq (hcont text)
  | last rest h =>
    obtain ⟨-, -, hlast⟩ | ⟨text, heq, rfl⟩ | ⟨text, lines, heq, -⟩ := h'.inv_line h
    · exact absurd rfl (hlast _)
    · rw [lastLine_inj heq]
    · exact absurd heq.symm contLine_ne_lastLine
  | cont h hrest ih =>
    obtain ⟨-, hcont, -⟩ | ⟨text, heq, -⟩ | ⟨text, lines, heq, hrest', rfl⟩ := h'.inv_line h
    · exact absurd rfl (hcont _)
    · exact absurd heq contLine_ne_lastLine
    · rw [contLine_inj heq, ih hrest']

/-! ### Replies -/

/-- A reply. -/
structure Reply where
  code : List UInt8
  /-- The texts of the lines before the last. -/
  texts : List (List UInt8)
  last : Option (List UInt8)
  length_code : code.length = 3
  digits : ∀ c ∈ code, isDigit c = true
  texts_lf : ∀ text ∈ texts, 10 ∉ text
  last_lf : ∀ text ∈ last, 10 ∉ text

/-- Lines with the code `code`, all of them but the last with a `-`. -/
def encodeLines (code : List UInt8) (texts : List (List UInt8)) (last : Option (List UInt8)) : List UInt8 :=
  (texts.flatMap fun text => contLine code text ++ [10]) ++ (lastLine code last ++ [10])

/-- The bytes of a reply. -/
def Reply.encode (reply : Reply) : List UInt8 := encodeLines reply.code reply.texts reply.last

/-- What the operation gets of a reply: the text of its one line, or the texts with an LF after each; up to
a NUL. -/
def Reply.response (reply : Reply) : List UInt8 :=
  let text :=
    if reply.texts = [] then reply.last.getD []
    else (reply.texts ++ [reply.last.getD []]).flatMap (· ++ [10])
  text.takeWhile (· ≠ 0)

@[simp] theorem encodeLines_nil (code : List UInt8) (last : Option (List UInt8)) :
    encodeLines code [] last = lastLine code last ++ [10] :=
  rfl

@[simp] theorem encodeLines_cons (code text : List UInt8) (texts : List (List UInt8))
    (last : Option (List UInt8)) :
    encodeLines code (text :: texts) last = contLine code text ++ 10 :: encodeLines code texts last := by
  rw [encodeLines, flatMap_cons, append_assoc, append_assoc]
  rfl

theorem not_mem_contLine (hcode : 10 ∉ code) (htext : 10 ∉ text) : 10 ∉ contLine code text := by
  simp [contLine, hcode, htext]

theorem not_mem_lastLine (hcode : 10 ∉ code) (hlast : ∀ text ∈ last, 10 ∉ text) :
    10 ∉ lastLine code last := by
  cases last with
  | none => simp [lastLine, hcode]
  | some text => simp [lastLine, hcode, hlast text rfl]

variable {texts : List (List UInt8)}

/-- Lines of a reply are read as such. -/
theorem scans_encodeLines (hcode : 10 ∉ code)
    (htexts : ∀ text ∈ texts, 10 ∉ text) (hlast : ∀ text ∈ last, 10 ∉ text) (rest : List UInt8) :
    Scans code (encodeLines code texts last ++ rest) (.complete texts last rest) := by
  induction texts with
  | nil =>
    rw [encodeLines_nil, append_assoc]
    exact .last rest (not_mem_lastLine hcode hlast)
  | cons text texts ih =>
    rw [forall_mem_cons] at htexts
    rw [encodeLines_cons, append_assoc, cons_append]
    exact .cont (not_mem_contLine hcode htexts.1) (ih htexts.2)

/-- What is read as lines of a reply are such lines. -/
theorem Scans.complete_eq {l : List UInt8} (h : Scans code l (.complete texts last rest)):
    l = encodeLines code texts last ++ rest ∧ (∀ text ∈ texts, 10 ∉ text) ∧ ∀ text ∈ last, 10 ∉ text := by
  generalize hlines : Lines.complete texts last rest = lines at h
  induction h generalizing texts with
  | more => cases hlines
  | bad => cases hlines
  | @last text rest' hnot =>
    cases hlines
    refine ⟨by rw [encodeLines_nil, append_assoc]; rfl, nofun, fun text' htext' hmem => hnot ?_⟩
    obtain rfl : last = some text' := htext'
    simp [lastLine, hmem]
  | @cont text rest' lines hnot hrest ih =>
    cases lines with
    | more => cases hlines
    | bad => cases hlines
    | complete texts' last' rest'' =>
      cases hlines
      obtain ⟨rfl, htexts, hlast⟩ := ih rfl
      refine ⟨by rw [encodeLines_cons, append_assoc]; rfl, ?_, hlast⟩
      refine forall_mem_cons.mpr ⟨fun hmem => hnot ?_, htexts⟩
      simp [contLine, hmem]

/-! ### The lines in the buffer -/

variable {m : Memory} {p limit : ℕ}

/-- The first line in the buffer, and what follows. -/
theorem slice_of_line (h : slice m p (limit - p) = line ++ 10 :: rest) :
    slice m p line.length = line ∧
      slice m (p + line.length + 1) (limit - (p + line.length + 1)) = rest := by
  obtain ⟨hline, htail⟩ := slice_of_eq_append h
  rw [← singleton_append] at htail
  obtain ⟨-, hrest⟩ := slice_of_eq_append htail
  rw [length_singleton, Nat.sub_sub, Nat.sub_sub] at hrest
  exact ⟨hline, hrest⟩

/-- A line that has a mark and a text after the code. -/
theorem badLine_marked {mark : UInt8} (hcode : code.length = 3)
    (hline : slice m p (code ++ mark :: (text ++ [13])).length = code ++ mark :: (text ++ [13]))
    (hmark : mark = 45 ∨ mark = 32) :
    ¬badLine m code p (p + (code ++ mark :: (text ++ [13])).length) ∧ m (p + 3) = mark := by
  rw [slice_append_iff, slice_cons_iff, slice_append_iff, hcode] at hline
  obtain ⟨hcodeEq, hmarkEq, -, hcr⟩ := hline
  rw [length_singleton, slice_one, singleton_inj] at hcr
  have hlength : (code ++ mark :: (text ++ [13])).length = 3 + 1 + text.length + 1 := by
    simp [hcode]
    omega
  refine ⟨?_, hmarkEq⟩
  rw [badLine, hlength, hmarkEq, hcodeEq]
  have hlast : m (p + (3 + 1 + text.length + 1) - 1) = 13 := by
    rw [show p + (3 + 1 + text.length + 1) - 1 = p + 3 + 1 + text.length by omega]
    exact hcr
  rintro (hshort | hend | hother | ⟨hdash, hspace, -⟩)
  · omega
  · exact hend hlast
  · exact hother rfl
  · exact hmark.elim hdash hspace

theorem badLine_bare (hcode : code.length = 3) (hline : slice m p (code ++ [13]).length = code ++ [13]) :
    ¬badLine m code p (p + (code ++ [13]).length) ∧ m (p + 3) = 13 := by
  rw [slice_append_iff, hcode, length_singleton, slice_one, singleton_inj] at hline
  obtain ⟨hcodeEq, hcr⟩ := hline
  have hlength : (code ++ [13]).length = 4 := by simp [hcode]
  refine ⟨?_, hcr⟩
  rw [badLine, hlength, hcr, hcodeEq]
  rintro (hshort | hend | hother | ⟨-, -, hbare⟩)
  · omega
  · exact hend hcr
  · exact hother rfl
  · exact hbare.elim (fun h => h rfl) fun h => h rfl

/-- The text after the code and a mark. -/
theorem exists_text (hmark : m (p + 3) ≠ 13) (hlength : 4 ≤ line.length)
    (hline : slice m p line.length = line) (hend : m (p + line.length - 1) = 13) :
    ∃ text, line = slice m p 3 ++ m (p + 3) :: (text ++ [13]) := by
  have hfive : line.length ≠ 4 := by
    intro hfour
    rw [hfour] at hend
    exact hmark hend
  obtain ⟨k, hk⟩ := Nat.exists_eq_add_of_le (show 5 ≤ line.length by omega)
  refine ⟨slice m (p + 4) k, ?_⟩
  rw [show p + line.length - 1 = p + 4 + k by omega] at hend
  rw [← hline, hk, show 5 + k = 3 + (1 + (k + 1)) by omega, slice_add, slice_add, slice_add, slice_one, slice_one,
    hend]
  rfl

/-- The check of a line tells what it is. -/
theorem badLine_cases (hcode : code.length = 3) (hline : slice m p line.length = line) :
    (badLine m code p (p + line.length) ∧ (∀ text, line ≠ contLine code text) ∧
        ∀ text, line ≠ lastLine code text) ∨
      (¬badLine m code p (p + line.length) ∧ m (p + 3) = 45 ∧ ∃ text, line = contLine code text) ∨
      (¬badLine m code p (p + line.length) ∧ m (p + 3) ≠ 45 ∧ ∃ text, line = lastLine code text) := by
  by_cases hbad : badLine m code p (p + line.length)
  · refine .inl ⟨hbad, ?_, ?_⟩
    · rintro text rfl
      exact (badLine_marked hcode hline (.inl rfl)).1 hbad
    · rintro (- | text) rfl
      · exact (badLine_bare hcode hline).1 hbad
      · exact (badLine_marked hcode hline (.inr rfl)).1 hbad
  have hgood := hbad
  rw [badLine, not_or, not_or, not_or, Nat.add_sub_cancel_left, Nat.not_lt, not_not, not_not] at hgood
  obtain ⟨hlength, hend, hcodeEq, hmark⟩ := hgood
  refine .inr ?_
  by_cases hdash : m (p + 3) = 45
  · obtain ⟨text, htext⟩ := exists_text (by rw [hdash]; decide) hlength hline hend
    rw [hcodeEq, hdash] at htext
    exact .inl ⟨hbad, hdash, text, htext⟩
  refine .inr ⟨hbad, hdash, ?_⟩
  by_cases hspace : m (p + 3) = 32
  · obtain ⟨text, htext⟩ := exists_text (by rw [hspace]; decide) hlength hline hend
    rw [hcodeEq, hspace] at htext
    exact ⟨some text, htext⟩
  · -- nothing but the CR is left
    rw [not_and, not_and, not_or, not_not, not_not] at hmark
    obtain ⟨hcr, hfour⟩ := hmark hdash hspace
    refine ⟨none, ?_⟩
    rw [← hline, show line.length = 3 + 1 by omega, slice_add, slice_one, hcr, hcodeEq]
    rfl

/-- What the search for the last line answers. -/
def Lines.answer (linesCount : ℕ) : Lines → LastLine
  | .more => .pending
  | .bad => .invalidFormat
  | .complete texts _ _ => .found (linesCount + texts.length + 1)

theorem Lines.answer_after (text : List UInt8) (lines : Lines) (linesCount : ℕ) :
    (lines.after text).answer linesCount = lines.answer (linesCount + 1) := by
  cases lines with
  | more => rfl
  | bad => rfl
  | complete texts last rest =>
    rw [Lines.after, Lines.answer, Lines.answer, length_cons]
    exact congrArg LastLine.found (by omega)

theorem findLastLine_eq (m : Memory) (limit : ℕ) (code : List UInt8) (p linesCount : ℕ) :
    findLastLine m limit code p linesCount =
      match memchr m p (limit - p) with
      | none => .pending
      | some lf =>
        if badLine m code p lf then .invalidFormat
        else if m (p + 3) ≠ 45 then .found (linesCount + 1)
        else findLastLine m limit code (lf + 1) (linesCount + 1) := by
  rw [findLastLine]
  split
  · next heq => rw [heq]
  · next heq => rw [heq]

/-- **The search reads the lines.** -/
theorem findLastLine_scans (hcode : code.length = 3) (m : Memory) (limit p linesCount : ℕ) :
    ∃ lines, Scans code (slice m p (limit - p)) lines ∧
      findLastLine m limit code p linesCount = lines.answer linesCount := by
  induction hk : limit - p using Nat.strong_induction_on generalizing p linesCount with
  | _ k ih =>
  subst hk
  rw [findLastLine_eq]
  obtain hopen | ⟨line, rest, hslice, hline⟩ := line_or_open (slice m p (limit - p))
  · rw [memchr_none hopen]
    exact ⟨.more, .more hopen, rfl⟩
  obtain ⟨hbytes, hrest⟩ := slice_of_line hslice
  rw [memchr_eq hslice hline, hslice]
  dsimp only
  obtain ⟨hbad, hcont, hlast⟩ | ⟨hgood, hdash, text, rfl⟩ | ⟨hgood, hdash, text, rfl⟩ := badLine_cases hcode hbytes
  · rw [if_pos hbad]
    exact ⟨.bad, .bad rest hline hcont hlast, rfl⟩
  · have hlt : limit - (p + (contLine code text).length + 1) < limit - p := by
      have hlength := congrArg List.length hslice
      rw [length_slice, length_append, length_cons] at hlength
      omega
    obtain ⟨lines, hscans, hfind⟩ := ih _ hlt _ (linesCount + 1) rfl
    rw [if_neg hgood, if_neg (not_not.mpr hdash), hfind, ← Lines.answer_after text]
    rw [hrest] at hscans
    exact ⟨_, .cont hline hscans, rfl⟩
  · rw [if_neg hgood, if_pos hdash]
    exact ⟨_, .last rest hline, rfl⟩

/-! ### Moving the texts together -/

/-- A line with a code has the text `text`. -/
inductive HasText (code : List UInt8) : List UInt8 → List UInt8 → Prop
  | marked {mark : UInt8} (text : List UInt8) (h : mark ≠ 13) :
      HasText code (code ++ mark :: (text ++ [13])) text
  | bare : HasText code (code ++ [13]) []

theorem hasText_contLine (code text : List UInt8) : HasText code (contLine code text) text :=
  .marked text (by decide)

theorem hasText_lastLine (code : List UInt8) (last : Option (List UInt8)) :
    HasText code (lastLine code last) (last.getD []) := by
  cases last with
  | none => exact .bare
  | some text => exact .marked text (by decide)

/-- Where the text of a line is. -/
theorem HasText.slice_eq (h : HasText code line text) (hcode : code.length = 3)
    (hline : slice m p line.length = line) :
    slice m (p + if m (p + 3) = 13 then 3 else 4) text.length = text ∧
      (p + if m (p + 3) = 13 then 3 else 4) + text.length + 1 = p + line.length ∧
      text.length + 4 ≤ line.length := by
  cases h with
  | @marked mark text hmark =>
    rw [slice_append_iff, slice_cons_iff, slice_append_iff, hcode] at hline
    obtain ⟨-, hmarkEq, htext, -⟩ := hline
    rw [if_neg (by rw [hmarkEq]; exact hmark)]
    refine ⟨htext, ?_, ?_⟩
    · simp [hcode]
      omega
    · simp [hcode]
      omega
  | bare =>
    rw [slice_append_iff, hcode, length_singleton, slice_one, singleton_inj] at hline
    rw [if_pos hline.2]
    refine ⟨rfl, ?_, ?_⟩
    · simp [hcode]
    · simp [hcode]

/-- A turn of the loop moves the text of one line. -/
theorem squash_succ (h : HasText code line text) (hcode : code.length = 3) (hlf : 10 ∉ line)
    (hslice : slice m p (limit - p) = line ++ 10 :: rest) (lines out : ℕ) :
    squash m limit (lines + 1) p out =
      squash (fill m out (text ++ [10])) limit lines (p + line.length + 1) (out + (text ++ [10]).length) := by
  obtain ⟨htext, hend, -⟩ := h.slice_eq hcode (slice_of_line hslice).1
  have hsize : p + line.length - 1 - (p + if m (p + 3) = 13 then 3 else 4) = text.length := by omega
  rw [squash, memchr_eq hslice hlf, Option.getD_some, hsize, htext, fill_fill, length_append]
  rfl

/-- The texts of a reply, with an LF after each. -/
def joined (texts : List (List UInt8)) (last : Option (List UInt8)) : List UInt8 :=
  (texts ++ [last.getD []]).flatMap (· ++ [10])

/-- **The texts are moved together**, behind `out`; what is before and what is after the reply is not
touched. -/
theorem squash_eq (hcode : code.length = 3) (hdigits : 10 ∉ code)
    (htexts : ∀ text ∈ texts, 10 ∉ text) (hlast : ∀ text ∈ last, 10 ∉ text)
    {out : ℕ} (hout : out ≤ p) (hslice : slice m p (limit - p) = encodeLines code texts last ++ rest) :
    ∃ m', squash m limit (texts.length + 1) p out =
        (m', p + (encodeLines code texts last).length, out + (joined texts last).length) ∧
      slice m' out (joined texts last).length = joined texts last ∧
      (∀ q n, q + n ≤ out → slice m' q n = slice m q n) ∧
      (∀ q n, p + (encodeLines code texts last).length ≤ q → slice m' q n = slice m q n) ∧
      out + (joined texts last).length + 4 ≤ p + (encodeLines code texts last).length := by
  induction texts generalizing m p out with
  | nil =>
    have hhas := hasText_lastLine code last
    have hlf := not_mem_lastLine hdigits hlast
    rw [encodeLines_nil, append_assoc, singleton_append] at hslice
    obtain ⟨-, -, hshort⟩ := hhas.slice_eq hcode (slice_of_line hslice).1
    have hjoined : joined [] last = last.getD [] ++ [10] := by simp [joined]
    rw [hjoined, encodeLines_nil]
    refine ⟨fill m out (last.getD [] ++ [10]), ?_, slice_fill _ _ _, ?_, ?_, ?_⟩
    · rw [length_nil, squash_succ hhas hcode hlf hslice, squash]
      simp only [length_append, length_singleton, Nat.add_assoc]
    · intro q n hle
      exact slice_fill_of_le hle _
    · intro q n hle
      refine slice_fill_of_ge ?_
      simp at hle ⊢
      omega
    · simp
      omega
  | cons text texts ih =>
    rw [forall_mem_cons] at htexts
    have hhas := hasText_contLine code text
    have hlf := not_mem_contLine hdigits htexts.1
    rw [encodeLines_cons, append_assoc, cons_append] at hslice
    obtain ⟨hline, hrest⟩ := slice_of_line hslice
    obtain ⟨-, -, hshort⟩ := hhas.slice_eq hcode hline
    have hbehind : out + (text ++ [10]).length ≤ p + (contLine code text).length + 1 := by
      rw [length_append, length_singleton]
      omega
    obtain ⟨m', hsquash, hjoin, hbefore, hafter, hroom⟩ := ih htexts.2 hbehind
      ((slice_fill_of_ge hbehind).trans hrest)
    have hjoined : joined (text :: texts) last = (text ++ [10]) ++ joined texts last := by simp [joined]
    have hlength : p + (encodeLines code (text :: texts) last).length =
        p + (contLine code text).length + 1 + (encodeLines code texts last).length := by
      rw [encodeLines_cons, length_append, length_cons]
      omega
    have hjoinedLength : (joined (text :: texts) last).length =
        (text ++ [10]).length + (joined texts last).length := by
      rw [hjoined, length_append]
    rw [hlength, hjoinedLength]
    refine ⟨m', ?_, ?_, fun q n hle => ?_, fun q n hle => ?_, ?_⟩
    · rw [length_cons, squash_succ hhas hcode hlf hslice, hsquash, Nat.add_assoc out]
    · rw [slice_add, hjoin, hbefore _ _ le_rfl, slice_fill, hjoined]
    · rw [hbefore q n (by omega), slice_fill_of_le hle]
    · rw [hafter q n hle, slice_fill_of_ge (by omega)]
    · omega

/-! ### Looking for a reply -/

/-- The bytes in the buffer that were not parsed. -/
def ReplyBuffer.buffered (client : ReplyBuffer) : List UInt8 :=
  slice client.buffer client.ptr (client.limit - client.ptr)

/-- The first bytes of a reply: three digits, and a `-`, a space or CRLF. -/
def Begins (l : List UInt8) : Prop :=
  (∀ c ∈ l.take 3, isDigit c = true) ∧ (l[3]? = some 45 ∨ l[3]? = some 32 ∨ (l[3]? = some 13 ∧ l[4]? = some 10))

/-- A string is read up to its first NUL. -/
theorem stringAt_eq {k : ℕ} (htext : slice m p k = text) (hnul : m (p + k) = 0) (hlimit : p + k < limit) :
    stringAt m p limit = text.takeWhile (· ≠ 0) := by
  obtain ⟨n, hn⟩ := Nat.exists_eq_add_of_lt hlimit
  have htake (tail : List UInt8) : (text ++ 0 :: tail).takeWhile (· ≠ 0) = text.takeWhile (· ≠ 0) := by
    rw [takeWhile_append]
    split
    · next hall =>
      rw [takeWhile_cons_of_neg (by decide), append_nil]
      exact ((List.takeWhile_prefix _).eq_of_length hall).symm
    · rfl
  rw [stringAt, show limit - p = k + (1 + n) by omega, slice_add, slice_add, slice_one, htext, hnul]
  exact htake _

/-- After the texts were moved together, there is one string, and what follows the reply. -/
theorem squashed (hcode : code.length = 3) (hdigits : 10 ∉ code)
    (htexts : ∀ text ∈ texts, 10 ∉ text) (hlast : ∀ text ∈ last, 10 ∉ text)
    (hslice : slice m p (limit - p) = encodeLines code texts last ++ rest) :
    ∃ m' end' out, squash m limit (texts.length + 1) p p = (m', end', out) ∧
      stringAt (fill m' out [0]) p limit = (joined texts last).takeWhile (· ≠ 0) ∧
      slice (fill m' out [0]) end' (limit - end') = rest ∧ end' ≤ limit := by
  obtain ⟨m', hsquash, hjoined, -, hafter, hroom⟩ := squash_eq hcode hdigits htexts hlast (Nat.le_refl p) hslice
  have hlength := congrArg List.length hslice
  rw [length_slice, length_append] at hlength
  refine ⟨m', _, _, hsquash, ?_, ?_, ?_⟩
  · refine stringAt_eq (k := (joined texts last).length) ?_ ?_ (by omega)
    · rw [slice_fill_of_le le_rfl, hjoined]
    · exact fill_add (i := 0) rfl
  · rw [slice_fill_of_ge (by rw [length_singleton]; omega), hafter _ _ le_rfl]
    have hrest := (slice_of_eq_append hslice).2
    rwa [Nat.sub_sub] at hrest
  · omega

theorem length_buffered (client : ReplyBuffer) : client.buffered.length = client.limit - client.ptr :=
  length_slice _ _ _

/-- What `smtpTryParse` makes of a reply that it found. -/
def Found (client : ReplyBuffer) (reply : Reply) (rest : List UInt8) : Prop :=
  client.buffered = reply.encode ++ rest ∧
    ∃ client', smtpTryParse client = .success (atoi reply.code) (reply.response ++ [0]) client' ∧
      client'.buffered = rest ∧ client'.limit = client.limit ∧ client'.ptr ≤ client'.limit

variable {client : ReplyBuffer}

/-- The first check of `smtpTryParse` was passed. -/
structure Checked (client : ReplyBuffer) : Prop where
  five : 5 ≤ client.limit - client.ptr
  digits : ∀ c ∈ slice client.buffer client.ptr 3, isDigit c = true
  mark : client.buffer (client.ptr + 3) = 45 ∨ client.buffer (client.ptr + 3) = 32 ∨
    (client.buffer (client.ptr + 3) = 13 ∧ client.buffer (client.ptr + 4) = 10)

theorem take_buffered (hfive : 5 ≤ client.limit - client.ptr) :
    client.buffered.take 3 = slice client.buffer client.ptr 3 :=
  @take_drop_slice client.buffer client.ptr 0 3 _ (by omega)

/-- The first check looks at the first bytes of a reply. -/
theorem checked_iff (hfive : 5 ≤ client.limit - client.ptr) : Checked client ↔ Begins client.buffered := by
  rw [Begins, take_buffered hfive, ReplyBuffer.buffered, getElem?_slice _ _ (by omega),
    getElem?_slice _ _ (by omega)]
  simp only [Option.some.injEq]
  exact ⟨fun h => ⟨h.digits, h.mark⟩, fun h => ⟨hfive, h.1, h.2⟩⟩

namespace Checked

variable (h : Checked client)

include h

theorem begins : Begins client.buffered := (checked_iff h.five).mp h

theorem not_mem_code : 10 ∉ slice client.buffer client.ptr 3 := fun hmem =>
  absurd (h.digits 10 hmem) (by decide)

/-- The condition of the code. -/
theorem not_refused : ¬(¬isDigits client.buffer client.ptr 3 ∨
    (client.buffer (client.ptr + 3) ≠ 45 ∧ client.buffer (client.ptr + 3) ≠ 32 ∧
      (client.buffer (client.ptr + 3) ≠ 13 ∨ client.buffer (client.ptr + 4) ≠ 10))) := by
  rintro (hdigits | ⟨hdash, hspace, hbare⟩)
  · exact hdigits (all_eq_true.mpr h.digits)
  · rcases h.mark with hmark | hmark | ⟨hcr, hlf⟩
    · exact hdash hmark
    · exact hspace hmark
    · exact hbare.elim (fun hne => hne hcr) fun hne => hne hlf

end Checked

/-- What `smtpTryParse` may find in the buffer. -/
inductive Looks (client : ReplyBuffer) : Prop
  | short (h : smtpTryParse client = .pending) (hshort : client.buffered.length < 5)
  | more (h : smtpTryParse client = .pending) (hbegins : Begins client.buffered)
      (hscans : Scans (client.buffered.take 3) client.buffered .more)
  | bad (h : smtpTryParse client = .invalidFormat) (hfive : 5 ≤ client.buffered.length)
      (hbad : ¬Begins client.buffered ∨ Scans (client.buffered.take 3) client.buffered .bad)
  | found (reply : Reply) (rest : List UInt8) (h : Found client reply rest)

/-- Before the lines are looked at: too little, something else, or the first check is passed. -/
theorem looks_or_checked (client : ReplyBuffer) : Looks client ∨ Checked client := by
  have hlength : client.buffered.length = client.limit - client.ptr := length_slice _ _ _
  by_cases hfive : client.limit - client.ptr < 5
  · exact .inl (.short (by rw [smtpTryParse, if_pos hfive]) (hlength.trans_lt hfive))
  by_cases hfirst : ¬isDigits client.buffer client.ptr 3 ∨
      (client.buffer (client.ptr + 3) ≠ 45 ∧ client.buffer (client.ptr + 3) ≠ 32 ∧
        (client.buffer (client.ptr + 3) ≠ 13 ∨ client.buffer (client.ptr + 4) ≠ 10))
  · refine .inl (.bad (by rw [smtpTryParse, if_neg hfive, if_pos hfirst]) (by omega) (.inl fun hbegins => ?_))
    exact ((checked_iff (by omega)).mpr hbegins).not_refused hfirst
  · simp only [not_or, not_and_or, not_not, ne_eq] at hfirst
    refine .inr ⟨by omega, all_eq_true.mp hfirst.1, ?_⟩
    rcases hfirst.2 with hdash | hspace | hbare
    · exact .inl hdash
    · exact .inr (.inl hspace)
    · exact .inr (.inr hbare)

/-- With the first check passed, a reply at the start of the buffer is found. -/
theorem Checked.found (h : Checked client) (texts : List (List UInt8)) (last : Option (List UInt8))
    (rest : List UInt8) {response : List UInt8} {client' : ReplyBuffer} (htexts : ∀ text ∈ texts, 10 ∉ text)
    (hlast : ∀ text ∈ last, 10 ∉ text)
    (hbuffered : client.buffered = encodeLines (slice client.buffer client.ptr 3) texts last ++ rest)
    (hresponse : response =
      (if texts = [] then last.getD [] else joined texts last).takeWhile (· ≠ 0))
    (hparse : smtpTryParse client =
      .success (atoi (slice client.buffer client.ptr 3)) (response ++ [0]) client')
    (hrest : client'.buffered = rest) (hlimit : client'.limit = client.limit)
    (hptr : client'.ptr ≤ client.limit) : Looks client := by
  subst hresponse
  exact .found ⟨_, texts, last, length_slice _ _ _, h.digits, htexts, hlast⟩ rest
    ⟨hbuffered, client', hparse, hrest, hlimit, hlimit.symm ▸ hptr⟩

/-- The mark of the first line tells whether there are more. -/
theorem mark_eq (hcode : code.length = 3)
    (hslice : slice m p (limit - p) = encodeLines code texts last ++ rest) :
    m (p + 3) = 45 ↔ texts ≠ [] := by
  cases texts with
  | nil =>
    rw [encodeLines_nil, append_assoc, singleton_append] at hslice
    have hline := (slice_of_line hslice).1
    refine iff_of_false ?_ fun h => h rfl
    cases last with
    | none =>
      rw [(badLine_bare hcode hline).2]
      decide
    | some text =>
      rw [(badLine_marked hcode hline (.inr rfl)).2]
      decide
  | cons text texts =>
    rw [encodeLines_cons, append_assoc, cons_append] at hslice
    exact iff_of_true (badLine_marked hcode (slice_of_line hslice).1 (.inl rfl)).2 nofun

namespace Checked

/-- There is no LF in the first bytes. -/
theorem memchr_eq (h : Checked client) :
    memchr client.buffer client.ptr (client.limit - client.ptr) =
      memchr client.buffer (client.ptr + 4) (client.limit - client.ptr - 4) := by
  have hfive := h.five
  have hmark : client.buffer (client.ptr + 3) ≠ 10 := by
    rcases h.mark with hmark | hmark | ⟨hmark, -⟩ <;> rw [hmark] <;> decide
  have hopen : 10 ∉ slice client.buffer client.ptr 4 := by
    rw [slice_add _ _ 3 1, slice_one]
    simp [h.not_mem_code, hmark.symm]
  exact memchr_skip hopen (by omega)

/-- The first line is checked like the others. -/
theorem search_eq (h : Checked client) :
    findLastLine client.buffer client.limit (slice client.buffer client.ptr 3) client.ptr 0 =
      match memchr client.buffer (client.ptr + 4) (client.limit - client.ptr - 4) with
      | none => .pending
      | some lf =>
        if client.buffer (lf - 1) ≠ 13 then .invalidFormat
        else if client.buffer (client.ptr + 3) ≠ 45 then .found 1
        else findLastLine client.buffer client.limit (slice client.buffer client.ptr 3) (lf + 1) 1 := by
  have hfive := h.five
  rw [findLastLine_eq, h.memchr_eq]
  cases hlf : memchr client.buffer (client.ptr + 4) (client.limit - client.ptr - 4) with
  | none => rfl
  | some lf =>
    have hafter := memchr_some hlf
    have hbad : badLine client.buffer (slice client.buffer client.ptr 3) client.ptr lf ↔
        client.buffer (lf - 1) ≠ 13 := by
      refine ⟨?_, fun h => .inr (.inl h)⟩
      rintro (hshort | hcr | hcode | ⟨hdash, hspace, hbare⟩)
      · omega
      · exact hcr
      · exact absurd rfl hcode
      · rcases h.mark with hmark | hmark | ⟨hmark, hfirst⟩
        · exact absurd hmark hdash
        · exact absurd hmark hspace
        · rw [memchr_self hfirst (by omega)] at hlf
          exact absurd (Option.some.inj hlf).symm (hbare.resolve_left fun h => h hmark)
    dsimp only
    simp only [hbad]

/-- The search for the last line decides what is found. -/
theorem looks (h : Checked client) (accept : ℕ → Parsed) (hparse : smtpTryParse client =
      match findLastLine client.buffer client.limit (slice client.buffer client.ptr 3) client.ptr 0 with
      | .pending => .pending
      | .invalidFormat => .invalidFormat
      | .found linesCount => accept linesCount)
    (haccept : ∀ texts last rest, (∀ text ∈ texts, 10 ∉ text) → (∀ text ∈ last, 10 ∉ text) →
      client.buffered = encodeLines (slice client.buffer client.ptr 3) texts last ++ rest →
      smtpTryParse client = accept (texts.length + 1) → Looks client) : Looks client := by
  obtain ⟨lines, hscans, hfind⟩ := findLastLine_scans (length_slice client.buffer client.ptr 3) client.buffer
    client.limit client.ptr 0
  rw [hfind] at hparse
  cases lines with
  | more => exact .more hparse h.begins (take_buffered h.five ▸ hscans)
  | bad =>
    exact .bad hparse (h.five.trans_eq (length_slice _ _ _).symm) (.inr (take_buffered h.five ▸ hscans))
  | complete texts last rest =>
    obtain ⟨hencode, htexts, hlast⟩ := hscans.complete_eq
    rw [Lines.answer, Nat.zero_add] at hparse
    exact haccept texts last rest htexts hlast hencode hparse

/-- A reply of several lines. -/
theorem looks_many (h : Checked client) (hdash : client.buffer (client.ptr + 3) = 45) : Looks client := by
  have hcode : (slice client.buffer client.ptr 3).length = 3 := length_slice _ _ _
  refine h.looks (fun linesCount =>
    let (m, p, out) := squash client.buffer client.limit linesCount client.ptr client.ptr
    let m := fill m out [0]
    .success (atoi (slice client.buffer client.ptr 3)) (stringAt m client.ptr client.limit ++ [0])
      { client with buffer := m, ptr := p }) ?_ fun texts last rest htexts hlast hencode hparse => ?_
  · rw [smtpTryParse, if_neg (Nat.not_lt_of_le h.five), if_neg h.not_refused, h.search_eq]
    dsimp only
    rw [if_pos hdash]
    cases memchr client.buffer (client.ptr + 4) (client.limit - client.ptr - 4) with
    | none => rfl
    | some lf =>
      dsimp only
      split
      · rfl
      · rw [if_neg (not_not.mpr hdash)]
  · obtain ⟨m', end', out, hsquash, hstring, hrest, hend⟩ :=
      squashed hcode h.not_mem_code htexts hlast hencode
    dsimp only at hparse
    rw [hsquash] at hparse
    exact h.found texts last rest htexts hlast hencode
      (by rw [if_neg ((mark_eq hcode hencode).mp hdash)]; exact hstring) hparse hrest rfl hend

/-- A reply of one line. -/
theorem looks_one (h : Checked client) (hdash : client.buffer (client.ptr + 3) ≠ 45) : Looks client := by
  have hcode : (slice client.buffer client.ptr 3).length = 3 := length_slice _ _ _
  refine h.looks (fun _ =>
    let lf := (memchr client.buffer client.ptr (client.limit - client.ptr)).getD 0
    let text := client.ptr + if client.buffer (client.ptr + 3) = 13 then 3 else 4
    let m := fill client.buffer (lf - 1) [0]
    .success (atoi (slice client.buffer client.ptr 3)) (stringAt m text client.limit ++ [0])
      { client with buffer := m, ptr := lf + 1 }) ?_ fun texts last rest htexts hlast hencode hparse => ?_
  · rw [smtpTryParse, if_neg (Nat.not_lt_of_le h.five), if_neg h.not_refused, h.search_eq, h.memchr_eq]
    dsimp only
    rw [if_neg hdash]
    split
    · next hbare =>
      have hfirst : client.buffer (client.ptr + 4) = 10 := by
        rcases h.mark with hmark | hmark | ⟨-, hfirst⟩
        · exact absurd hmark hdash
        · exact absurd (hbare.symm.trans hmark) (by decide)
        · exact hfirst
      have hfive := h.five
      rw [memchr_self hfirst (by omega)]
      dsimp only [Option.getD_some]
      rw [if_neg (show ¬client.buffer (client.ptr + 4 - 1) ≠ 13 from not_not.mpr hbare)]
      rfl
    · cases memchr client.buffer (client.ptr + 4) (client.limit - client.ptr - 4) with
      | none => rfl
      | some lf =>
        dsimp only
        split
        · rfl
        · rfl
  · obtain rfl : texts = [] := not_not.mp fun hne => hdash ((mark_eq hcode hencode).mpr hne)
    have hslice := hencode
    rw [encodeLines_nil, append_assoc, singleton_append] at hslice
    obtain ⟨hline, hrest⟩ := slice_of_line hslice
    obtain ⟨htext, hend, -⟩ := (hasText_lastLine _ last).slice_eq hcode hline
    have hlength := congrArg List.length hslice
    rw [length_buffered, length_append, length_cons] at hlength
    dsimp only at hparse
    rw [Smtp.memchr_eq hslice (not_mem_lastLine h.not_mem_code hlast), Option.getD_some] at hparse
    refine h.found [] last rest htexts hlast hencode ?_ hparse ?_ rfl ?_
    · refine stringAt_eq (k := (last.getD []).length) ?_ ?_ (by omega)
      · rw [slice_fill_of_le (by omega), htext, if_pos rfl]
      · rw [← hend, Nat.add_sub_cancel]
        exact fill_add (i := 0) rfl
    · exact (slice_fill_of_ge (by dsimp only [length_singleton]; omega)).trans hrest
    · dsimp only
      omega

end Checked

/-- **What is found in the buffer**: too little, something else, or a reply. -/
theorem smtpTryParse_looks (client : ReplyBuffer) : Looks client := by
  obtain hlooks | hchecked := looks_or_checked client
  · exact hlooks
  by_cases hdash : client.buffer (client.ptr + 3) = 45
  · exact hchecked.looks_many hdash
  · exact hchecked.looks_one hdash

end Smtp

end Asyncio

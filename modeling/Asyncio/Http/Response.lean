import Asyncio.Http.Bodies

/-!
# The parser of responses

`httpParse` goes through the start line, the headers, and the body, which is either of a given length or
comes in chunks, with trailers after the last one. A step is one line of the head, one turn of the loop
over the chunks, one trailer, or what there is of a body of known length.

## Main results

* `feed_eq_parse` — fed piece by piece, the parser does what it does on the whole
-/

namespace Asyncio

namespace Http

open Incremental
open List hiding take

/-! ### Code -/

/-- `HttpParserStateTy` -/
inductive ParserStateTy
  | startLine | header | body | last | trailer
  deriving DecidableEq

/-- `HttpParserState`, without the buffer. -/
structure ParserState extends Framing where
  state : ParserStateTy
  deriving DecidableEq

/-- `HttpComponent` -/
inductive Component
  | startLine (majorVersion minorVersion code : ℕ) (description : List UInt8)
  | header (line : HeaderLine)
  | data (bytes : List UInt8)
  | dataFragment (bytes : List UInt8)
  deriving DecidableEq

/-- `httpInit` -/
def httpInit : ParserState where
  state := .startLine
  chunked := false
  dataRemaining := 0
  firstFragment := true
  seenContentLength := false
  seenTransferEncoding := false

/-- The value of a digit. -/
def digit (c : UInt8) : ℕ := c.toNat - 48

/-- What is before the phrase of a start line: blanks, or nothing at all. -/
def skipBeforePhrase : List UInt8 → Scan UInt8 Unit
  | [] => .needMoreData
  | c :: s => if c = 32 then skipOWS (c :: s) else if c ≠ 13 then .error else .ok () (c :: s)

/-- `httpParseStartLine`, without the call of the callback at its end. -/
def httpParseStartLine (input : List UInt8) : Scan UInt8 Component :=
  (take 8 input).bind fun version ptr =>
    if version.take 5 ≠ bytes "HTTP/" then .error
    else
      match version.drop 5 with
      | [major, dot, minor] =>
        if !(isDigit major && dot = 46 && isDigit minor) then .error
        else
          (skipSPCharacters ptr).bind fun _ ptr =>
            (take 3 ptr).bind fun code ptr =>
              if !code.all isDigit then .error
              else
                (skipBeforePhrase ptr).bind fun _ ptr =>
                  (withText readUntilCRLF ptr).bind fun (_, line) rest =>
                    .ok (.startLine (digit major) (digit minor)
                      (code.foldl (fun n c => 10 * n + digit c) 0)
                      (line.take (line.length - 2))) rest
      | _ => .error

/-- A step of `httpParse`. -/
def responseStep (table : Option HeaderTable) (st : ParserState) (input : List UInt8) :
    Step ParserState UInt8 Component ParserResult :=
  match st.state with
  | .startLine =>
    match httpParseStartLine input with
    | .needMoreData => .need st input []
    | .error => .stop .error st input []
    | .ok component rest => .next { st with state := .header } rest [component]
  | .header =>
    if input.length < 2 then .need st input []
    else if input.take 2 = crlf then
      if st.seenTransferEncoding && !st.chunked then .stop .error st (input.drop 2) []
      else .next { st with state := .body } (input.drop 2) []
    else
      match parseHeaderLine st.toFraming (table.getD httpHeaderDefaultTable) input with
      | .needMoreData => .need st input []
      | .error => .stop .error st input []
      | .ok (framing, line) rest => .next { st with toFraming := framing } rest [.header line]
  | .body =>
    if st.chunked then
      match parseChunkedTurn st.toFraming input with
      | .fragment complete data framing rest =>
        let out := if data = [] then [] else [Component.dataFragment data]
        if complete then .next { st with toFraming := framing } rest out
        else .need { st with toFraming := framing } rest out
      | .size framing rest => .next { st with toFraming := framing } rest []
      | .trailer rest => .next { st with state := .trailer } rest []
      | .needMoreData => .need st input []
      | .error => .stop .error st input []
    else if st.dataRemaining ≤ input.length then
      let data := input.take st.dataRemaining
      .stop .ok { st with state := .last } (input.drop st.dataRemaining)
        [if st.firstFragment then .data data else .dataFragment data]
    else if input = [] then .need st input []
    else
      .need { st with firstFragment := false, dataRemaining := st.dataRemaining - input.length } []
        [.dataFragment input]
  | .trailer =>
    if 2 ≤ input.length ∧ input.take 2 = crlf then
      .stop .ok { st with state := .last } (input.drop 2) [.data []]
    else
      match readUntilCRLF input with
      | .needMoreData => .need st input []
      | .error => .stop .error st input []
      | .ok _ rest => .next st rest []
  | .last => .stop .ok st input []

/-- `httpParse` -/
def httpParse (table : Option HeaderTable) (st : ParserState) (input : List UInt8) :
    Outcome ParserState UInt8 Component ParserResult :=
  parse (responseStep table) st input

/-! ### Pieces -/

/-- What is compared of a component: the data byte by byte. -/
inductive Atom
  | startLine (majorVersion minorVersion code : ℕ) (description : List UInt8)
  | header (line : HeaderLine)
  | byte (b : UInt8)

def Component.atoms : Component → List Atom
  | .startLine majorVersion minorVersion code description =>
    [.startLine majorVersion minorVersion code description]
  | .header line => [.header line]
  | .data bytes => bytes.map .byte
  | .dataFragment bytes => bytes.map .byte

/-- What is compared of all components. -/
def atoms (out : List Component) : List Atom := out.flatMap Component.atoms

theorem stableBefore_skipBeforePhrase : StableBefore skipBeforePhrase := by
  intro x y hneed hend
  cases x with
  | nil => exact absurd rfl hneed
  | cons c s =>
    have hdef (t : List UInt8) : skipBeforePhrase (c :: t) = if c = 32 then skipOWS (c :: t)
      else if c ≠ 13 then .error else .ok () (c :: t) := rfl
    rw [hdef] at hneed hend
    rw [cons_append, hdef, hdef]
    by_cases hspace : c = 32
    · rw [if_pos hspace] at hneed hend
      rw [if_pos hspace, if_pos hspace]
      exact stableBefore_skip isOWS (c :: s) y hneed hend
    rw [if_neg hspace, if_neg hspace]
    by_cases hcr : c ≠ 13
    · rw [if_pos hcr, if_pos hcr]
      rfl
    · rw [if_neg hcr, if_neg hcr]
      rfl

theorem stable_startLinePhrase (major minor : UInt8) (code : List UInt8) :
    Stable fun ptr => (skipBeforePhrase ptr).bind fun _ ptr =>
      (withText readUntilCRLF ptr).bind fun (_, line) rest =>
        .ok (Component.startLine (digit major) (digit minor)
          (code.foldl (fun n c => 10 * n + digit c) 0) (line.take (line.length - 2))) rest :=
  stableBefore_skipBeforePhrase.bind
    (fun _ => (stable_readUntilCRLF.withText leaves_readUntilCRLF).bind fun _ => stable_ok _)
    fun _ => rfl

theorem stable_httpParseStartLine : Stable httpParseStartLine := by
  refine (stable_take 8).bind fun version => .ite stable_error ?_
  split
  · next major dot minor _ =>
    refine .ite stable_error (stableBefore_skipSPCharacters.bind (fun _ => ?_) fun _ => rfl)
    exact (stable_take 3).bind fun code => .ite stable_error (stable_startLinePhrase major minor code)
  · exact stable_error

theorem leaves_skipBeforePhrase : Leaves skipBeforePhrase := by
  intro x value rest h
  cases x with
  | nil => cases h
  | cons c s =>
    unfold skipBeforePhrase at h
    dsimp only at h
    split at h
    · exact leaves_skip _ _ _ _ h
    split at h
    · cases h
    · cases h
      exact suffix_refl _

theorem shortens_httpParseStartLine : Shortens httpParseStartLine := by
  refine (shortens_take (by decide)).bind fun version => .ite leaves_error ?_
  split
  · refine .ite leaves_error (leaves_skipSPCharacters.bind fun _ => ?_)
    refine (leaves_take 3).bind fun code => .ite leaves_error (leaves_skipBeforePhrase.bind fun _ => ?_)
    exact leaves_readUntilCRLF.withText.bind fun _ => leaves_ok _
  · exact leaves_error

/-! ### Steps on more input -/

theorem atoms_append (out out' : List Component) : atoms (out ++ out') = atoms out ++ atoms out' :=
  flatMap_append

/-- An empty fragment is not delivered, which makes no difference. -/
theorem atoms_fragment (data : List UInt8) :
    atoms (if data = [] then [] else [.dataFragment data]) = data.map .byte := by
  split
  · next h =>
    rw [h]
    rfl
  · exact append_nil _

theorem atoms_singleton_fragment (data : List UInt8) :
    atoms [.dataFragment data] = data.map .byte :=
  append_nil _

section Resume

variable {table : Option HeaderTable} (framing : Framing)

theorem resumableAt_startLine :
    ResumableAt (responseStep table) atoms ⟨framing, .startLine⟩ := by
  refine .of_scan rfl .error (k := fun component rest => .next ⟨framing, .header⟩ rest [component])
    (fun input => ?_) stable_httpParseStartLine shortens_httpParseStartLine
    fun _ => .inl ⟨_, _, fun _ => rfl⟩
  rw [responseStep]
  cases httpParseStartLine input with
  | needMoreData => rfl
  | error => rfl
  | ok component rest => rfl

theorem resumableAt_header : ResumableAt (responseStep table) atoms ⟨framing, .header⟩ := by
  refine resumableAt_headerLine (ParserState.mk · .header) (fun rest =>
    if framing.seenTransferEncoding && !framing.chunked then .stop .error ⟨framing, .header⟩ rest []
    else .next ⟨framing, .body⟩ rest []) rfl (fun _ => rfl) ?_
  split
  · exact .inr ⟨_, _, _, fun _ => rfl⟩
  · exact .inl ⟨_, _, fun _ => rfl⟩

theorem resumableAt_last : ResumableAt (responseStep table) atoms ⟨framing, .last⟩ :=
  .of_settles fun input => .stop (suffix_refl input) fun _ => rfl

theorem responseStep_chunked (hchunked : framing.chunked = true) (input : List UInt8) :
    responseStep table ⟨framing, .body⟩ input =
      match parseChunkedTurn framing input with
      | .fragment complete data framing rest =>
        let out := if data = [] then [] else [.dataFragment data]
        if complete then .next ⟨framing, .body⟩ rest out else .need ⟨framing, .body⟩ rest out
      | .size framing rest => .next ⟨framing, .body⟩ rest []
      | .trailer rest => .next ⟨framing, .trailer⟩ rest []
      | .needMoreData => .need ⟨framing, .body⟩ input []
      | .error => .stop .error ⟨framing, .body⟩ input [] :=
  if_pos hchunked

theorem responseStep_fixed (hchunked : framing.chunked = false) (input : List UInt8) :
    responseStep table ⟨framing, .body⟩ input =
      if framing.dataRemaining ≤ input.length then
        .stop .ok ⟨framing, .last⟩ (input.drop framing.dataRemaining)
          [if framing.firstFragment then .data (input.take framing.dataRemaining)
          else .dataFragment (input.take framing.dataRemaining)]
      else if input = [] then .need ⟨framing, .body⟩ input []
      else
        .need ⟨{ framing with
            firstFragment := false
            dataRemaining := framing.dataRemaining - input.length }, .body⟩ []
          [.dataFragment input] :=
  if_neg (Bool.eq_false_iff.mp hchunked)

theorem atoms_data (c : Bool) (data : List UInt8) :
    atoms [if c then .data data else .dataFragment data] = data.map .byte := by
  cases c with
  | true => exact append_nil _
  | false => exact append_nil _

/-- A body of known length. -/
theorem resumableAt_fixed (hchunked : framing.chunked = false) :
    ResumableAt (responseStep table) atoms ⟨framing, .body⟩ := by
  refine resumableAt_fixedData (ParserState.mk · .body) (ParserState.mk · .last)
    (fun framing n => { framing with
      firstFragment := false
      dataRemaining := framing.dataRemaining - n })
    (fun framing data => [if framing.firstFragment then .data data else .dataFragment data])
    rfl atoms_singleton_fragment
    (fun framing hchunked => responseStep_fixed framing hchunked) (fun framing m n => ?_)
    (fun framing n => ⟨rfl, rfl⟩) (fun framing data more => ?_) hchunked
  · rw [Nat.sub_sub]
  · rw [atoms_data, atoms_data, map_append]

end Resume

/-- The parser of responses may be fed piece by piece. -/
theorem resumable_responseStep (table : Option HeaderTable) :
    Resumable (responseStep table) atoms where
  view_nil := rfl
  view_append := atoms_append
  resumable := by
    rintro ⟨framing, state⟩
    cases state with
    | startLine => exact resumableAt_startLine framing
    | header => exact resumableAt_header framing
    | body =>
      cases hchunked : framing.chunked with
      | false => exact resumableAt_fixed framing hchunked
      | true =>
        exact resumableAt_chunked (ParserState.mk · .body) (ParserState.mk · .trailer) rfl atoms_fragment
          responseStep_chunked hchunked
    | trailer => exact resumableAt_trailerLine rfl fun _ => rfl
    | last => exact resumableAt_last framing

/-! ### The order of components -/

/-- A component with data of the body. -/
def Component.isData : Component → Bool
  | .data _ | .dataFragment _ => true
  | .startLine .. | .header _ => false

/-- The start line and the headers of a response. -/
structure Head where
  majorVersion : ℕ
  minorVersion : ℕ
  code : ℕ
  description : List UInt8
  headers : List HeaderLine

def Head.components (head : Head) : List Component :=
  .startLine head.majorVersion head.minorVersion head.code head.description ::
    head.headers.map .header

/-- The headers are the lines that `parseHeaderLine` gives. -/
def Head.ParsedBy (table : HeaderTable) (head : Head) : Prop :=
  ∀ line ∈ head.headers, ∃ framing input framing' rest,
    parseHeaderLine framing table input = .ok (framing', line) rest

/-- What was delivered before the parser came to a state. -/
def Shaped (table : HeaderTable) : ParserStateTy → List Component → Prop
  | .startLine, out => out = []
  | .header, out => ∃ head : Head, head.ParsedBy table ∧ out = head.components
  | .body, out | .trailer, out | .last, out =>
    ∃ (head : Head) (data : List Component), head.ParsedBy table ∧
      out = head.components ++ data ∧ ∀ component ∈ data, component.isData = true

theorem httpParseStartLine_ok {input rest : List UInt8} {component : Component}
    (h : httpParseStartLine input = .ok component rest) :
    ∃ major minor code description, component = .startLine major minor code description := by
  obtain ⟨version, ptr, -, h⟩ := Scan.bind_eq_ok h
  split at h
  · cases h
  split at h
  · split at h
    · cases h
    obtain ⟨-, ptr, -, h⟩ := Scan.bind_eq_ok h
    obtain ⟨code, ptr, -, h⟩ := Scan.bind_eq_ok h
    split at h
    · cases h
    obtain ⟨-, ptr, -, h⟩ := Scan.bind_eq_ok h
    obtain ⟨line, ptr, -, h⟩ := Scan.bind_eq_ok h
    cases h
    exact ⟨_, _, _, _, rfl⟩
  · cases h

/-- More data at the end. -/
theorem Shaped.data {table : HeaderTable} {out data : List Component} (h : Shaped table .body out)
    (hdata : ∀ component ∈ data, component.isData = true) : Shaped table .last (out ++ data) := by
  obtain ⟨head, data', hhead, rfl, hdata'⟩ := h
  refine ⟨head, data' ++ data, hhead, append_assoc _ _ _, fun component hmem => ?_⟩
  rcases mem_append.mp hmem with hmem | hmem
  · exact hdata' component hmem
  · exact hdata component hmem

/-- A fragment is data, if there is one. -/
theorem isData_fragment (data : List UInt8) :
    ∀ component ∈ (if data = [] then [] else [Component.dataFragment data]),
      component.isData = true := by
  intro component hmem
  split at hmem
  · cases hmem
  · rw [mem_singleton.mp hmem]
    rfl

/-- What a step delivers is in order. -/
theorem shaped_responseStep (table : Option HeaderTable) (st : ParserState) (input : List UInt8)
    (out : List Component) (h : Shaped (table.getD httpHeaderDefaultTable) st.state out) :
    (responseStep table st input).Keeps
      (fun st => Shaped (table.getD httpHeaderDefaultTable) st.state)
      (fun result out => result = .ok → Shaped (table.getD httpHeaderDefaultTable) .last out) out := by
  obtain ⟨framing, state⟩ := st
  cases state with
  | startLine =>
    obtain rfl : out = [] := h
    rw [responseStep]
    dsimp only
    cases hline : httpParseStartLine input with
    | needMoreData => exact rfl
    | error => exact nofun
    | ok component rest =>
      obtain ⟨major, minor, code, description, rfl⟩ := httpParseStartLine_ok hline
      exact ⟨⟨major, minor, code, description, []⟩, nofun, rfl⟩
  | header =>
    obtain ⟨head, hhead, rfl⟩ := h
    rw [responseStep]
    dsimp only
    split
    · exact ⟨head, hhead, append_nil _⟩
    split
    · split
      · exact nofun
      · exact ⟨head, [], hhead, rfl, nofun⟩
    · cases hline : parseHeaderLine framing (table.getD httpHeaderDefaultTable) input with
      | needMoreData => exact ⟨head, hhead, append_nil _⟩
      | error => exact nofun
      | ok value rest =>
        refine ⟨{ head with headers := head.headers ++ [value.2] }, fun line hmem => ?_, ?_⟩
        · rcases mem_append.mp hmem with hmem | hmem
          · exact hhead line hmem
          · rw [mem_singleton.mp hmem]
            exact ⟨_, _, _, _, hline⟩
        · rw [Head.components, Head.components, map_append]
          rfl
  | body =>
    cases hchunked : framing.chunked with
    | false =>
      rw [responseStep_fixed framing hchunked]
      split
      · refine fun _ => h.data fun component hmem => ?_
        rw [mem_singleton.mp hmem]
        split
        · rfl
        · rfl
      split
      · exact h.data nofun
      · refine h.data fun component hmem => ?_
        rw [mem_singleton.mp hmem]
        rfl
    | true =>
      rw [responseStep_chunked framing hchunked]
      cases parseChunkedTurn framing input with
      | fragment complete data framing rest =>
        cases complete with
        | true => exact h.data (isData_fragment _)
        | false => exact h.data (isData_fragment _)
      | error => exact nofun
      | _ => exact h.data nofun
  | trailer =>
    rw [responseStep]
    dsimp only
    split
    · refine fun _ => Shaped.data h fun component hmem => ?_
      rw [mem_singleton.mp hmem]
      rfl
    · cases readUntilCRLF input with
      | needMoreData => exact Shaped.data h nofun
      | error => exact nofun
      | ok value rest => exact Shaped.data h nofun
  | last => exact fun _ => Shaped.data h nofun

/-- Feed `httpParse` piece by piece: each call gets what the one before has not consumed, and the next
piece, until one does not need more or the pieces are used up. -/
def httpFeed (table : Option HeaderTable) (st : ParserState) (pieces : List (List UInt8)) :
    Outcome ParserState UInt8 Component ParserResult :=
  feed (responseStep table) st [] pieces

/-- **Incremental parsing is parsing.** Whatever the bytes, the table and the state, and however the bytes
are cut into pieces, the calls of `httpParse` on the pieces come to the result of one call on the whole,
leave the same bytes, and deliver the same components, with the data of the body taken together. -/
theorem feed_eq_parse (table : Option HeaderTable) (st : ParserState) (piece : List UInt8)
    (pieces : List (List UInt8)) :
    (httpFeed table st (piece :: pieces)).result =
        (httpParse table st (piece :: pieces).flatten).result ∧
      (httpFeed table st (piece :: pieces)).rest =
        (httpParse table st (piece :: pieces).flatten).rest ∧
      atoms (httpFeed table st (piece :: pieces)).out =
        atoms (httpParse table st (piece :: pieces).flatten).out := by
  have hagree : Agree atoms [] (httpParse table st (piece :: pieces).flatten)
      (httpFeed table st (piece :: pieces)) :=
    (resumable_responseStep table).feed (cons_ne_nil piece pieces)
  exact ⟨hagree.result.symm, hagree.rest.symm, hagree.view.symm⟩

end Http

end Asyncio

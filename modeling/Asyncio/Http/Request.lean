import Asyncio.Http.Response
import Asyncio.Uri.Resume

/-!
# The parser of requests

`httpRequestParse` goes through the method, the target, the version, the headers and the body of a request.
Each part falls through to the next one, and each has its own rule for what is kept when it needs more.

## Main results

* `request_feed_eq_parse` — fed piece by piece, the parser does what it does on the whole
-/

namespace Asyncio

namespace Http

open Incremental Uri List

/-! ### Methods -/

/-- The values of `httpTokenCharTable`. -/
def charTable : List UInt8 := [
  0x00, 0x00, 0x00, 0x00, 0x00, 0x00, 0x00, 0x00, 0x00, 0x00, 0x00, 0x00, 0x00, 0x00, 0x00, 0x00,
  0x00, 0x00, 0x00, 0x00, 0x00, 0x00, 0x00, 0x00, 0x00, 0x00, 0x00, 0x00, 0x00, 0x00, 0x00, 0x00,
  0x00, 0x21, 0x00, 0x23, 0x24, 0x25, 0x26, 0x27, 0x00, 0x00, 0x2a, 0x2b, 0x00, 0x2d, 0x2e, 0x00,
  0x30, 0x31, 0x32, 0x33, 0x34, 0x35, 0x36, 0x37, 0x38, 0x39, 0x00, 0x00, 0x00, 0x00, 0x00, 0x00,
  0x00, 0x41, 0x42, 0x43, 0x44, 0x45, 0x46, 0x47, 0x48, 0x49, 0x4a, 0x4b, 0x4c, 0x4d, 0x4e, 0x4f,
  0x50, 0x51, 0x52, 0x53, 0x54, 0x55, 0x56, 0x57, 0x58, 0x59, 0x5a, 0x00, 0x00, 0x00, 0x5e, 0x5f,
  0x60, 0x61, 0x62, 0x63, 0x64, 0x65, 0x66, 0x67, 0x68, 0x69, 0x6a, 0x6b, 0x6c, 0x6d, 0x6e, 0x6f,
  0x70, 0x71, 0x72, 0x73, 0x74, 0x75, 0x76, 0x77, 0x78, 0x79, 0x7a, 0x00, 0x7c, 0x00, 0x7e, 0x00,
  0x00, 0x00, 0x00, 0x00, 0x00, 0x00, 0x00, 0x00, 0x00, 0x00, 0x00, 0x00, 0x00, 0x00, 0x00, 0x00,
  0x00, 0x00, 0x00, 0x00, 0x00, 0x00, 0x00, 0x00, 0x00, 0x00, 0x00, 0x00, 0x00, 0x00, 0x00, 0x00,
  0x00, 0x00, 0x00, 0x00, 0x00, 0x00, 0x00, 0x00, 0x00, 0x00, 0x00, 0x00, 0x00, 0x00, 0x00, 0x00,
  0x00, 0x00, 0x00, 0x00, 0x00, 0x00, 0x00, 0x00, 0x00, 0x00, 0x00, 0x00, 0x00, 0x00, 0x00, 0x00,
  0x00, 0x00, 0x00, 0x00, 0x00, 0x00, 0x00, 0x00, 0x00, 0x00, 0x00, 0x00, 0x00, 0x00, 0x00, 0x00,
  0x00, 0x00, 0x00, 0x00, 0x00, 0x00, 0x00, 0x00, 0x00, 0x00, 0x00, 0x00, 0x00, 0x00, 0x00, 0x00,
  0x00, 0x00, 0x00, 0x00, 0x00, 0x00, 0x00, 0x00, 0x00, 0x00, 0x00, 0x00, 0x00, 0x00, 0x00, 0x00,
  0x00, 0x00, 0x00, 0x00, 0x00, 0x00, 0x00, 0x00, 0x00, 0x00, 0x00, 0x00, 0x00, 0x00, 0x00, 0x00]

/-- `httpTokenCharTable` -/
def httpTokenCharTable (c : UInt8) : UInt8 := charTable[c.toNat]?.getD 0

def hmUnknown : Int := 0
def hmGet : Int := 1
def hmHead : Int := 2
def hmPost : Int := 3
def hmPut : Int := 4
def hmDelete : Int := 5
def hmConnect : Int := 6
def hmOptions : Int := 7
def hmTrace : Int := 8
def hmPatch : Int := 9

/-- `HttpMethodTable`, with `HttpMethodDisplacement` -/
def httpMethodTable : HeaderTable where
  entries := [
  emptyEntry, emptyEntry, emptyEntry,
  ⟨some (bytes "HEAD"), 4, hmHead, 0x4b9253d8ff1ee183⟩,
  emptyEntry,
  ⟨some (bytes "OPTIONS"), 7, hmOptions, 0x87cc05b46a17cf65⟩,
  emptyEntry,
  ⟨some (bytes "POST"), 4, hmPost, 0xa048aa190bf19f87⟩,
  emptyEntry, emptyEntry,
  ⟨some (bytes "DELETE"), 6, hmDelete, 0x5cd15819e278608a⟩,
  ⟨some (bytes "PATCH"), 5, hmPatch, 0xbebf4d0191bc5a49⟩,
  emptyEntry, emptyEntry,
  ⟨some (bytes "PUT"), 3, hmPut, 0x8d8fb019f3f63ece⟩,
  emptyEntry,
  ⟨some (bytes "TRACE"), 5, hmTrace, 0x8993c501d2ecea4e⟩,
  emptyEntry, emptyEntry, emptyEntry, emptyEntry, emptyEntry, emptyEntry,
  ⟨some (bytes "GET"), 3, hmGet, 0xea7e631998067e17⟩,
  emptyEntry,
  ⟨some (bytes "CONNECT"), 7, hmConnect, 0xc09b4a14fc824b19⟩,
  emptyEntry, emptyEntry, emptyEntry, emptyEntry, emptyEntry, emptyEntry]
  displacement := [
    0, 2, 0, 0, 0, 0, 0, 0, 0, 0, 0, 0, 0, 0, 0, 0, 0, 0, 0, 0, 0, 0, 0, 0, 0, 0, 0, 0, 0, 0, 0, 0]
  tableSize := 32
  groupCount := 32
  block := false

/-- `httpMethodLookup` -/
def httpMethodLookup (input : List UInt8) : Scan UInt8 (Int × List UInt8) :=
  lookupToken 32 httpTokenCharTable httpMethodTable input

/-! ### Code -/

/-- `HttpRequestParserStateTy` -/
inductive RequestStateTy
  | method | uriPath | uriQuery | uriFragment | version | header | body | last | trailer
  deriving DecidableEq

/-- `HttpRequestParserState`, without the buffer. -/
structure RequestState extends Framing where
  state : RequestStateTy
  deriving DecidableEq

/-- `HttpRequestComponent` -/
inductive RequestComponent
  | method (method : Int)
  | uriPathElement (data : List UInt8)
  | uriQueryElement (data data2 : List UInt8)
  | uriFragment (data : List UInt8)
  | version (majorVersion minorVersion : ℕ)
  | headerEntry (line : HeaderLine)
  | data (bytes : List UInt8)
  | dataLast (bytes : List UInt8)
  deriving DecidableEq

/-- `httpRequestParserInit` -/
def httpRequestParserInit : RequestState where
  state := .method
  chunked := false
  dataRemaining := 0
  firstFragment := true
  seenContentLength := false
  seenTransferEncoding := false

/-- A step of `httpRequestParse`. -/
abbrev RequestStep := Step RequestState UInt8 RequestComponent ParserResult

/-- The callback of `uriParsePath`. -/
def pathCb : UriComponent → Option RequestComponent
  | .pathElement raw => some (.uriPathElement raw)
  | _ => none

/-- The callback of `uriParseQuery`. -/
def queryCb : UriComponent → Option RequestComponent
  | .queryElement raw raw2 => some (.uriQueryElement raw raw2)
  | _ => none

/-- The callback of `uriParseFragment`. -/
def fragmentCb : UriComponent → Option RequestComponent
  | .fragment raw => some (.uriFragment raw)
  | _ => none

/-- The blanks that may have been left by `skipSPCharacters`. -/
def skipBlanks (ptr : List UInt8) : List UInt8 := ptr.dropWhile (· = 32)

/-- `httpRequestParseHead`, the version. -/
def requestVersion (st : RequestState) (ptr : List UInt8) : RequestStep :=
  let ptr := skipBlanks ptr
  if ptr.length < 10 then .need { st with state := .version } ptr []
  else if ptr.take 5 ≠ bytes "HTTP/" then .stop .error { st with state := .version } ptr []
  else
    match ptr.drop 5 with
    | major :: dot :: minor :: cr :: lf :: rest =>
      if !(isDigit major && dot = 46 && isDigit minor && cr = 13 && lf = 10) then
        .stop .error { st with state := .version } (ptr.drop 5) []
      else .next { st with state := .header } rest [.version (digit major) (digit minor)]
    | _ => .need { st with state := .version } ptr []

/-- `httpRequestParseHead`, what is between the target and the version. -/
def requestTargetEnd (st : RequestState) (out : List RequestComponent) (ptr : List UInt8) :
    RequestStep :=
  match skipSPCharacters ptr with
  | .needMoreData => .need { st with state := .uriFragment } ptr out
  | .error => .stop .error { st with state := .uriFragment } ptr out
  | .ok _ ptr => (requestVersion st ptr).deliver out

/-- `httpRequestParseHead`, the fragment. -/
def requestFragment (st : RequestState) (ptr : List UInt8) : RequestStep :=
  match ptr with
  | [] => .need { st with state := .uriFragment } [] []
  | c :: p =>
    if c = 35 then
      match uriParseFragment false p with
      | .needMoreData => .need { st with state := .uriFragment } (c :: p) []
      | .error => .stop .error { st with state := .uriFragment } p []
      | .ok out ptr => requestTargetEnd st (out.filterMap fragmentCb) ptr
    else requestTargetEnd st [] (c :: p)

/-- `httpRequestParseHead`, the query. -/
def requestQuery (st : RequestState) (ptr : List UInt8) : RequestStep :=
  match uriParseQuery false ptr with
  | .needMoreData =>
    .need { st with state := .uriQuery } (uriParseQueryHeld ptr).2
      ((uriParseQueryHeld ptr).1.filterMap queryCb)
  | .error => .stop .error { st with state := .uriQuery } ptr []
  | .ok out ptr => (requestFragment st ptr).deliver (out.filterMap queryCb)

/-- `httpRequestParseHead`, what comes after the path. -/
def requestPathEnd (st : RequestState) (ptr : List UInt8) : RequestStep :=
  match ptr with
  | [] => .need { st with state := .uriPath } [] []
  | c :: p => if c = 63 then requestQuery st p else requestFragment st (c :: p)

/-- `httpRequestParseHead`, the path. -/
def requestPath (st : RequestState) (ptr : List UInt8) : RequestStep :=
  let ptr := skipBlanks ptr
  match uriParsePath false ptr with
  | .needMoreData =>
    .need { st with state := .uriPath } (uriParsePathHeld ptr).2
      ((uriParsePathHeld ptr).1.filterMap pathCb)
  | .error => .stop .error { st with state := .uriPath } ptr []
  | .ok out ptr => (requestPathEnd st ptr).deliver (out.filterMap pathCb)

/-- `httpRequestParseHead`, the method. -/
def requestMethod (st : RequestState) (ptr : List UInt8) : RequestStep :=
  match httpMethodLookup ptr with
  | .needMoreData => .need st ptr []
  | .error => .stop .error st ptr []
  | .ok (token, _) ptr =>
    match skipSPCharacters ptr with
    | .needMoreData => .need st ptr [.method token]
    | .error => .stop .error st ptr [.method token]
    | .ok _ ptr => (requestPath st ptr).deliver [.method token]

/-- `httpRequestParseHead`, a turn of the loop over the headers. -/
def requestHeader (table : Option HeaderTable) (st : RequestState) (ptr : List UInt8) : RequestStep :=
  if ptr.length < 2 then .need st ptr []
  else if ptr.take 2 = crlf then
    if st.seenTransferEncoding && !st.chunked then .stop .error st (ptr.drop 2) []
    else if st.chunked || st.dataRemaining ≠ 0 then .next { st with state := .body } (ptr.drop 2) []
    else .stop .ok { st with state := .last } (ptr.drop 2) [.dataLast []]
  else
    match parseHeaderLine st.toFraming (table.getD httpHeaderDefaultTable) ptr with
    | .needMoreData => .need st ptr []
    | .error => .stop .error st ptr []
    | .ok (framing, line) rest => .next { st with toFraming := framing } rest [.headerEntry line]

/-- `httpRequestParseBody`, the data. -/
def requestBody (st : RequestState) (ptr : List UInt8) : RequestStep :=
  if st.chunked then
    match parseChunkedTurn st.toFraming ptr with
    | .fragment complete data framing rest =>
      let out := if data = [] then [] else [RequestComponent.data data]
      if complete then .next { st with toFraming := framing } rest out
      else .need { st with toFraming := framing } rest out
    | .size framing rest => .next { st with toFraming := framing } rest []
    | .trailer rest => .next { st with state := .trailer } rest []
    | .needMoreData => .need st ptr []
    | .error => .stop .error st ptr []
  else if st.dataRemaining ≤ ptr.length then
    .stop .ok { st with state := .last } (ptr.drop st.dataRemaining)
      [.dataLast (ptr.take st.dataRemaining)]
  else if ptr = [] then .need st ptr []
  else .need { st with dataRemaining := st.dataRemaining - ptr.length } [] [.data ptr]

/-- `httpRequestParseBody`, a turn of the loop over the trailers. -/
def requestTrailer (st : RequestState) (ptr : List UInt8) : RequestStep :=
  if 2 ≤ ptr.length ∧ ptr.take 2 = crlf then
    .stop .ok { st with state := .last } (ptr.drop 2) [.dataLast []]
  else
    match readUntilCRLF ptr with
    | .needMoreData => .need st ptr []
    | .error => .stop .error st ptr []
    | .ok _ rest => .next st rest []

/-- A step of `httpRequestParse`. -/
def requestStep (table : Option HeaderTable) (st : RequestState) (input : List UInt8) : RequestStep :=
  match st.state with
  | .method => requestMethod st input
  | .uriPath => requestPath st input
  | .uriQuery => requestQuery st input
  | .uriFragment => requestFragment st input
  | .version => requestVersion st input
  | .header => requestHeader table st input
  | .body => requestBody st input
  | .trailer => requestTrailer st input
  | .last => .stop .ok st input []

/-- `httpRequestParse` -/
def httpRequestParse (table : Option HeaderTable) (st : RequestState) (input : List UInt8) :
    Outcome RequestState UInt8 RequestComponent ParserResult :=
  parse (requestStep table) st input

/-! ### Pieces -/

/-- What is compared of a component: the data byte by byte, and that it has ended. -/
inductive RequestAtom
  | component (component : RequestComponent)
  | byte (b : UInt8)
  | last

def RequestComponent.atoms : RequestComponent → List RequestAtom
  | .data bytes => bytes.map .byte
  | .dataLast bytes => bytes.map .byte ++ [.last]
  | component => [.component component]

/-- What is compared of all components. -/
def requestAtoms (out : List RequestComponent) : List RequestAtom := out.flatMap RequestComponent.atoms

theorem requestAtoms_append (out out' : List RequestComponent) :
    requestAtoms (out ++ out') = requestAtoms out ++ requestAtoms out' :=
  flatMap_append

theorem requestAtoms_singleton (component : RequestComponent) :
    requestAtoms [component] = component.atoms :=
  append_nil _

theorem requestAtoms_fragment (data : List UInt8) :
    requestAtoms (if data = [] then [] else [.data data]) = data.map .byte := by
  split
  · next h =>
    rw [h]
    rfl
  · exact requestAtoms_singleton _

/-- Blanks are skipped, before and after more arrives. -/
theorem skipBlanks_append (x y : List UInt8) : skipBlanks (skipBlanks x ++ y) = skipBlanks (x ++ y) := by
  induction x with
  | nil => rfl
  | cons c x ih =>
    by_cases hc : c = 32
    · have hskip (z : List UInt8) : skipBlanks (c :: z) = skipBlanks z :=
        dropWhile_cons_of_pos (decide_eq_true hc)
      rw [cons_append, hskip, hskip, ih]
    · have hstay (z : List UInt8) : skipBlanks (c :: z) = c :: z :=
        dropWhile_cons_of_neg (by simp [hc])
      rw [hstay]

theorem skipBlanks_of_ne_nil {x : List UInt8} (h : skipBlanks x ≠ []) (y : List UInt8) :
    skipBlanks (x ++ y) = skipBlanks x ++ y :=
  dropWhile_append h y

section Resume

variable {table : Option HeaderTable} (framing : Framing)

theorem requestVersion_append (st : RequestState) (ptr more : List UInt8) :
    requestVersion st (skipBlanks ptr ++ more) = requestVersion st (ptr ++ more) := by
  rw [requestVersion, requestVersion, skipBlanks_append]

theorem requestPath_append (st : RequestState) (ptr more : List UInt8) :
    requestPath st (skipBlanks ptr ++ more) = requestPath st (ptr ++ more) := by
  rw [requestPath, requestPath, skipBlanks_append]

theorem resumableAt_version : ResumableAt (requestStep table) requestAtoms ⟨framing, .version⟩ := by
  refine .of_settles fun input => ?_
  have hsuffix : skipBlanks input <:+ input := dropWhile_suffix _
  have hstep (ptr : List UInt8) :
      requestStep table ⟨framing, .version⟩ ptr = requestVersion ⟨framing, .version⟩ ptr := rfl
  by_cases hshort : (skipBlanks input).length < 10
  · refine .need hsuffix ((hstep input).trans (if_pos hshort)) fun more => ?_
    rw [hstep, hstep, requestVersion_append]
    exact .refl rfl _
  have hmore (more : List UInt8) : skipBlanks (input ++ more) = skipBlanks input ++ more :=
    skipBlanks_of_ne_nil (fun h => hshort (by rw [h]; decide)) more
  have hlong (more : List UInt8) : ¬(skipBlanks input ++ more).length < 10 := by
    rw [length_append]
    omega
  have hversion (more : List UInt8) : requestStep table ⟨framing, .version⟩ (input ++ more) =
      if (skipBlanks input).take 5 ≠ bytes "HTTP/" then
        .stop .error ⟨framing, .version⟩ (skipBlanks input ++ more) []
      else
        match (skipBlanks input).drop 5 ++ more with
        | major :: dot :: minor :: cr :: lf :: rest =>
          if !(isDigit major && dot = 46 && isDigit minor && cr = 13 && lf = 10) then
            .stop .error ⟨framing, .version⟩ ((skipBlanks input).drop 5 ++ more) []
          else .next ⟨framing, .header⟩ rest [.version (digit major) (digit minor)]
        | _ => .need ⟨framing, .version⟩ (skipBlanks input ++ more) [] := by
    rw [hstep, requestVersion, hmore, if_neg (hlong more), take_append_of_le_length (by omega),
      drop_append_of_le_length (by omega)]
  by_cases hhttp : (skipBlanks input).take 5 ≠ bytes "HTTP/"
  · exact .stop hsuffix fun more => (hversion more).trans (if_pos hhttp)
  have hlength : 5 ≤ ((skipBlanks input).drop 5).length := by
    rw [length_drop]
    omega
  have hdrop : (skipBlanks input).drop 5 <:+ input := (drop_suffix 5 _).trans hsuffix
  match hrest : (skipBlanks input).drop 5 with
  | major :: dot :: minor :: cr :: lf :: rest =>
    rw [hrest] at hversion hdrop
    by_cases hdigits : (!(isDigit major && dot = 46 && isDigit minor && cr = 13 && lf = 10)) = true
    · exact .stop hdrop fun more => (hversion more).trans ((if_neg hhttp).trans (if_pos hdigits))
    · have htail : rest <:+ major :: dot :: minor :: cr :: lf :: rest :=
        suffix_append [major, dot, minor, cr, lf] rest
      have hlt := hdrop.length_le
      simp only [length_cons] at hlt
      exact .next (htail.trans hdrop) (by omega) fun more =>
        (hversion more).trans ((if_neg hhttp).trans (if_neg hdigits))
  | [] => simp [hrest] at hlength
  | [_] => simp [hrest] at hlength
  | [_, _] => simp [hrest] at hlength
  | [_, _, _] => simp [hrest] at hlength
  | [_, _, _, _] => simp [hrest] at hlength

/-- The end of a target is an error, or falls through to the version. -/
theorem requestTargetEnd_cases (st : RequestState) (out : List RequestComponent) {ptr : List UInt8}
    (hptr : ptr ≠ []) :
    (∀ more, requestTargetEnd st out (ptr ++ more) =
        .stop .error { st with state := .uriFragment } (ptr ++ more) out) ∨
      ∀ more, requestTargetEnd st out (ptr ++ more) =
        (requestVersion st (skipBlanks ptr ++ more)).deliver out := by
  obtain ⟨c, p, rfl⟩ := exists_cons_of_ne_nil hptr
  by_cases hc : c ≠ 32
  · refine .inl fun more => ?_
    rw [requestTargetEnd, cons_append, skipSPCharacters, if_pos hc]
  · refine .inr fun more => ?_
    rw [requestTargetEnd, cons_append, skipSPCharacters, if_neg hc, requestVersion_append]
    have hversion := requestVersion_append st (c :: (p ++ more)) []
    rw [append_nil, append_nil] at hversion
    exact congrArg (Step.deliver out) hversion

theorem resumableAt_fragment :
    ResumableAt (requestStep table) requestAtoms ⟨framing, .uriFragment⟩ := by
  refine .of_settles fun input => ?_
  have hstep (ptr : List UInt8) : requestStep table ⟨framing, .uriFragment⟩ ptr =
    requestFragment ⟨framing, .uriFragment⟩ ptr := rfl
  -- what follows the fragment, or the path and the query if there is none
  have hend (out : List RequestComponent) {ptr : List UInt8} (hptr : ptr ≠ []) (hsuffix : ptr <:+ input)
      (hmore : ∀ more, requestFragment ⟨framing, .uriFragment⟩ (input ++ more) =
        requestTargetEnd ⟨framing, .uriFragment⟩ out (ptr ++ more)) :
      Settles (requestStep table) requestAtoms ⟨framing, .uriFragment⟩ input := by
    obtain herror | hfalls := requestTargetEnd_cases ⟨framing, .uriFragment⟩ out hptr
    · exact .stop hsuffix fun more => (hmore more).trans (herror more)
    · exact .falls (resumableAt_version framing) requestAtoms_append
        ((dropWhile_suffix _).trans hsuffix) fun more => (hmore more).trans (hfalls more)
  cases input with
  | nil => exact .need (suffix_refl []) rfl fun more => .refl rfl _
  | cons c p =>
    have hself (q : List UInt8) : requestFragment ⟨framing, .uriFragment⟩ (c :: q) =
      if c = 35 then
        match uriParseFragment false q with
        | .needMoreData => .need ⟨framing, .uriFragment⟩ (c :: q) []
        | .error => .stop .error ⟨framing, .uriFragment⟩ q []
        | .ok out ptr => requestTargetEnd ⟨framing, .uriFragment⟩ (out.filterMap fragmentCb) ptr
      else requestTargetEnd ⟨framing, .uriFragment⟩ [] (c :: q) := rfl
    by_cases hc : c = 35
    · have hreads : ReadsSpan isQueryChar fragmentOut (uriParseFragment false) :=
        uriParseFragment_eq false
      have hstable := hreads.stable (by decide) p
      cases hfragment : uriParseFragment false p with
      | needMoreData =>
        have hneed : requestStep table ⟨framing, .uriFragment⟩ (c :: p) =
            .need ⟨framing, .uriFragment⟩ (c :: p) [] := by
          rw [hstep, hself, if_pos hc, hfragment]
        exact .need (suffix_refl _) hneed fun more => .refl rfl _
      | error =>
        rw [hreads p] at hfragment
        split at hfragment
        · cases hfragment
        · cases hfragment
      | ok out ptr =>
        refine hend (out.filterMap fragmentCb) (hreads.rest_ne_nil hfragment)
          ((hreads.leaves (by decide) p out ptr hfragment).trans (suffix_cons c p)) fun more => ?_
        rw [cons_append, hself, if_pos hc, hstable more (by rw [hfragment]; nofun), hfragment]
        rfl
    · refine hend [] (cons_ne_nil c p) (suffix_refl _) fun more => ?_
      rw [cons_append, hself, if_neg hc]

/-- The same was delivered before both steps, and something more before one of them. -/
theorem similar_deliver (o o' : List RequestComponent) (s : RequestStep) :
    Similar requestAtoms o (s.deliver (o ++ o')) (s.deliver o') := by
  have hview (out : List RequestComponent) :
      requestAtoms (o ++ o' ++ out) = requestAtoms o ++ requestAtoms (o' ++ out) := by
    rw [append_assoc, requestAtoms_append]
  cases s with
  | next => exact ⟨rfl, rfl, hview _⟩
  | need => exact ⟨rfl, rfl, hview _⟩
  | stop => exact ⟨rfl, rfl, hview _⟩

section Part

variable {f : List UInt8 → Scan UInt8 (List UriComponent)}
  {held : List UInt8 → List UriComponent × List UInt8} {pick : UriComponent → Option RequestComponent}
  {state : RequestState} {k g : List UInt8 → RequestStep}

/-- A path or a query that needs more, and the next call. -/
theorem similar_part (hresumes : ResumesFrom f held pick) (hg : ∀ p, g p =
      match f p with
      | .needMoreData => .need state (held p).2 ((held p).1.filterMap pick)
      | .error => .stop .error state p []
      | .ok out ptr => (k ptr).deliver (out.filterMap pick)) (p more : List UInt8) :
    Similar requestAtoms ((held p).1.filterMap pick) (g (p ++ more)) (g ((held p).2 ++ more)) := by
  obtain ⟨hout, hrest, ⟨hneed, hneed'⟩ | ⟨out, out', ptr, hok, hok', hpick⟩⟩ := hresumes p more
  · rw [hg (p ++ more), hg (_ ++ more), hneed, hneed', hout, hrest]
    exact ⟨rfl, rfl, requestAtoms_append _ _⟩
  · rw [hg (p ++ more), hg (_ ++ more), hok, hok']
    dsimp only
    rw [hpick]
    exact similar_deliver _ _ _

end Part

theorem resumableAt_query : ResumableAt (requestStep table) requestAtoms ⟨framing, .uriQuery⟩ := by
  refine .of_settles fun input => ?_
  have hstep (ptr : List UInt8) : requestStep table ⟨framing, .uriQuery⟩ ptr =
    requestQuery ⟨framing, .uriQuery⟩ ptr := rfl
  have hreads := readsSpan_uriParseQuery
  have hheld : (uriParseQueryHeld input).2 <:+ input := by
    obtain hall | ⟨u, v, hinput, hheld⟩ := uriParseQueryHeld_cases input
    · rw [hall]
    · rw [hheld]
      exact ⟨u, hinput.symm⟩
  cases hquery : uriParseQuery false input with
  | needMoreData =>
    have hneed : requestStep table ⟨framing, .uriQuery⟩ input =
        .need ⟨framing, .uriQuery⟩ (uriParseQueryHeld input).2
          ((uriParseQueryHeld input).1.filterMap queryCb) := by
      rw [hstep, requestQuery, hquery]
    exact .need hheld hneed fun more =>
      similar_part (resumes_uriParseQuery fun _ => rfl) (fun _ => rfl) input more
  | error =>
    rw [hreads input] at hquery
    split at hquery
    · cases hquery
    · cases hquery
  | ok out ptr =>
    have hfalls (more : List UInt8) : requestStep table ⟨framing, .uriQuery⟩ (input ++ more) =
        (requestStep table ⟨framing, .uriFragment⟩ (ptr ++ more)).deliver (out.filterMap queryCb) := by
      rw [hstep, requestQuery, hreads.stable (by decide) input more (by rw [hquery]; nofun), hquery]
      rfl
    exact .falls (resumableAt_fragment framing) requestAtoms_append
      (hreads.leaves (by decide) input out ptr hquery) hfalls

theorem resumableAt_path : ResumableAt (requestStep table) requestAtoms ⟨framing, .uriPath⟩ := by
  refine .of_settles fun input => ?_
  have hstep (ptr : List UInt8) : requestStep table ⟨framing, .uriPath⟩ ptr =
    requestPath ⟨framing, .uriPath⟩ ptr := rfl
  have hreads := readsSpan_uriParsePath
  have hsuffix : skipBlanks input <:+ input := dropWhile_suffix _
  by_cases hnil : skipBlanks input = []
  · -- only blanks so far
    have hneed : requestStep table ⟨framing, .uriPath⟩ input = .need ⟨framing, .uriPath⟩ [] [] := by
      rw [hstep, requestPath, hnil]
      rfl
    refine .need nil_suffix hneed fun more => ?_
    rw [hstep, hstep, ← hnil, requestPath_append]
    exact .refl rfl _
  -- past the blanks, and past those of the next call
  have hblanks (more : List UInt8) : skipBlanks (input ++ more) = skipBlanks input ++ more :=
    skipBlanks_of_ne_nil hnil more
  have hheld : (uriParsePathHeld (skipBlanks input)).2 <:+ skipBlanks input ∧
      ∀ more, skipBlanks ((uriParsePathHeld (skipBlanks input)).2 ++ more) =
        (uriParsePathHeld (skipBlanks input)).2 ++ more := by
    obtain hall | ⟨u, v, hinput, hheld⟩ := uriParsePathHeld_cases (skipBlanks input)
    · rw [hall]
      exact ⟨suffix_refl _, fun more => (skipBlanks_append input more).trans (hblanks more)⟩
    · rw [hheld]
      exact ⟨⟨u, hinput.symm⟩, fun more => dropWhile_cons_of_neg (by decide)⟩
  cases hpath : uriParsePath false (skipBlanks input) with
  | needMoreData =>
    have hneed : requestStep table ⟨framing, .uriPath⟩ input =
        .need ⟨framing, .uriPath⟩ (uriParsePathHeld (skipBlanks input)).2
          ((uriParsePathHeld (skipBlanks input)).1.filterMap pathCb) := by
      rw [hstep, requestPath, hpath]
    refine .need (hheld.1.trans hsuffix) hneed fun more => ?_
    rw [hstep, hstep, requestPath, requestPath, hblanks, hheld.2]
    exact similar_part (resumes_uriParsePath fun _ => rfl) (fun _ => rfl) (skipBlanks input) more
  | error =>
    rw [hreads (skipBlanks input)] at hpath
    split at hpath
    · cases hpath
    · cases hpath
  | ok out ptr =>
    have hptr : ptr <:+ input := (hreads.leaves (by decide) _ out ptr hpath).trans hsuffix
    have hmore (more : List UInt8) : requestStep table ⟨framing, .uriPath⟩ (input ++ more) =
        (requestPathEnd ⟨framing, .uriPath⟩ (ptr ++ more)).deliver (out.filterMap pathCb) := by
      rw [hstep, requestPath, hblanks, hreads.stable (by decide) _ more (by rw [hpath]; nofun), hpath]
      rfl
    obtain ⟨c, p, rfl⟩ := exists_cons_of_ne_nil (hreads.rest_ne_nil hpath)
    by_cases hc : c = 63
    · have hend (more : List UInt8) : requestPathEnd ⟨framing, .uriPath⟩ (c :: p ++ more) =
        requestStep table ⟨framing, .uriQuery⟩ (p ++ more) := if_pos hc
      exact .falls (resumableAt_query framing) requestAtoms_append ((suffix_cons c p).trans hptr)
        fun more => (hmore more).trans (congrArg (Step.deliver (out.filterMap pathCb)) (hend more))
    · have hend (more : List UInt8) : requestPathEnd ⟨framing, .uriPath⟩ (c :: p ++ more) =
        requestStep table ⟨framing, .uriFragment⟩ (c :: p ++ more) := if_neg hc
      exact .falls (resumableAt_fragment framing) requestAtoms_append hptr
        fun more => (hmore more).trans (congrArg (Step.deliver (out.filterMap pathCb)) (hend more))

theorem resumableAt_method : ResumableAt (requestStep table) requestAtoms ⟨framing, .method⟩ := by
  refine .of_settles fun input => ?_
  have hstep (ptr : List UInt8) : requestStep table ⟨framing, .method⟩ ptr =
    requestMethod ⟨framing, .method⟩ ptr := rfl
  have hstable := stable_lookupToken 32 httpTokenCharTable httpMethodTable input
  cases hlookup : httpMethodLookup input with
  | needMoreData =>
    have hneed : requestStep table ⟨framing, .method⟩ input = .need ⟨framing, .method⟩ input [] := by
      rw [hstep, requestMethod, hlookup]
    exact .need (suffix_refl input) hneed fun more => .refl rfl _
  | error =>
    have hmore (more : List UInt8) : requestStep table ⟨framing, .method⟩ (input ++ more) =
        .stop .error ⟨framing, .method⟩ (input ++ more) [] := by
      have hlookup' : httpMethodLookup (input ++ more) = .error :=
        (hstable more fun h => by rw [httpMethodLookup, h] at hlookup; cases hlookup).trans
          (congrArg (Scan.extend more) hlookup)
      rw [hstep, requestMethod, hlookup']
    exact .stop (suffix_refl input) hmore
  | ok value ptr =>
    -- the blank that ends a method is there
    obtain ⟨hsuffix, p, rfl⟩ := lookupToken_ok hlookup
    have hmore (more : List UInt8) : requestStep table ⟨framing, .method⟩ (input ++ more) =
        (requestStep table ⟨framing, .uriPath⟩ (skipBlanks (32 :: p) ++ more)).deliver
          [.method value.1] := by
      have hlookup' : httpMethodLookup (input ++ more) = .ok value (32 :: p ++ more) :=
        (hstable more fun h => by rw [httpMethodLookup, h] at hlookup; cases hlookup).trans
          (congrArg (Scan.extend more) hlookup)
      have hpath := requestPath_append ⟨framing, .method⟩ (32 :: p ++ more) []
      rw [append_nil, append_nil, ← requestPath_append _ (32 :: p) more] at hpath
      rw [hstep, requestMethod, hlookup']
      exact congrArg (Step.deliver [.method value.1]) hpath
    exact .falls (resumableAt_path framing) requestAtoms_append
      ((dropWhile_suffix _).trans hsuffix) hmore

theorem resumableAt_requestHeader :
    ResumableAt (requestStep table) requestAtoms ⟨framing, .header⟩ := by
  refine resumableAt_headerLine (RequestState.mk · .header) (fun rest =>
    if framing.seenTransferEncoding && !framing.chunked then .stop .error ⟨framing, .header⟩ rest []
    else if framing.chunked || framing.dataRemaining ≠ 0 then .next ⟨framing, .body⟩ rest []
    else .stop .ok ⟨framing, .last⟩ rest [.dataLast []]) rfl (fun _ => rfl) ?_
  split
  · exact .inr ⟨_, _, _, fun _ => rfl⟩
  split
  · exact .inl ⟨_, _, fun _ => rfl⟩
  · exact .inr ⟨_, _, _, fun _ => rfl⟩

theorem resumableAt_requestLast : ResumableAt (requestStep table) requestAtoms ⟨framing, .last⟩ :=
  .of_settles fun input => .stop (suffix_refl input) fun _ => rfl

theorem resumableAt_requestFixed (hchunked : framing.chunked = false) :
    ResumableAt (requestStep table) requestAtoms ⟨framing, .body⟩ := by
  refine resumableAt_fixedData (RequestState.mk · .body) (RequestState.mk · .last)
    (fun framing n => { framing with dataRemaining := framing.dataRemaining - n })
    (fun _ data => [.dataLast data])
    rfl (fun data => requestAtoms_singleton (.data data))
    (fun framing hchunked input => if_neg (Bool.eq_false_iff.mp hchunked)) (fun framing m n => ?_)
    (fun framing n => ⟨rfl, rfl⟩) (fun framing data more => ?_) hchunked
  · rw [Nat.sub_sub]
  · rw [requestAtoms_singleton, requestAtoms_singleton, RequestComponent.atoms, RequestComponent.atoms,
      map_append, append_assoc]

end Resume

/-- The parser of requests may be fed piece by piece. -/
theorem resumable_requestStep (table : Option HeaderTable) :
    Resumable (requestStep table) requestAtoms where
  view_nil := rfl
  view_append := requestAtoms_append
  resumable := by
    rintro ⟨framing, state⟩
    cases state with
    | method => exact resumableAt_method framing
    | uriPath => exact resumableAt_path framing
    | uriQuery => exact resumableAt_query framing
    | uriFragment => exact resumableAt_fragment framing
    | version => exact resumableAt_version framing
    | header => exact resumableAt_requestHeader framing
    | body =>
      cases hchunked : framing.chunked with
      | false => exact resumableAt_requestFixed framing hchunked
      | true =>
        exact resumableAt_chunked (RequestState.mk · .body) (RequestState.mk · .trailer) rfl
          requestAtoms_fragment (fun _ h _ => if_pos h) hchunked
    | last => exact resumableAt_requestLast framing
    | trailer => exact resumableAt_trailerLine rfl fun _ => rfl

/-- Feed `httpRequestParse` piece by piece: each call gets what the one before has not consumed, and the
next piece, until one does not need more or the pieces are used up. -/
def httpRequestFeed (table : Option HeaderTable) (st : RequestState) (pieces : List (List UInt8)) :
    Outcome RequestState UInt8 RequestComponent ParserResult :=
  feed (requestStep table) st [] pieces

/-- **Incremental parsing is parsing.** Whatever the bytes, the table and the state, and however the bytes
are cut into pieces, the calls of `httpRequestParse` on the pieces come to the result of one call on the
whole, leave the same bytes, and deliver the same components, with the data of the body taken together. -/
theorem request_feed_eq_parse (table : Option HeaderTable) (st : RequestState) (piece : List UInt8)
    (pieces : List (List UInt8)) :
    (httpRequestFeed table st (piece :: pieces)).result =
        (httpRequestParse table st (piece :: pieces).flatten).result ∧
      (httpRequestFeed table st (piece :: pieces)).rest =
        (httpRequestParse table st (piece :: pieces).flatten).rest ∧
      requestAtoms (httpRequestFeed table st (piece :: pieces)).out =
        requestAtoms (httpRequestParse table st (piece :: pieces).flatten).out := by
  have hagree : Agree requestAtoms [] (httpRequestParse table st (piece :: pieces).flatten)
      (httpRequestFeed table st (piece :: pieces)) :=
    (resumable_requestStep table).feed (cons_ne_nil piece pieces)
  exact ⟨hagree.result.symm, hagree.rest.symm, hagree.view.symm⟩

end Http

end Asyncio

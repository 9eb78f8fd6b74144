import Asyncio.Grammar.Span
import Asyncio.Incremental.Scanner
import Mathlib.Data.Nat.Bitwise

/-!
# URIs

`uriParse` goes through a URI and gives its components to a callback, `URI::build` writes one from the
components that `stdCb` keeps.

A pointer into a string that ends with NUL is the list of the bytes before the NUL. Two pointers with the
bytes between them are these bytes. The callback always accepts. What it got before a parser fails is not
modelled; what it got before a parser needs more is (`uriParsePathHeld`, `uriParseQueryHeld`).
-/

namespace Asyncio

namespace Uri

open Incremental

/-! ### Characters -/

def isLetter (s : UInt8) : Bool := (65 ≤ s && s ≤ 90) || (97 ≤ s && s ≤ 122)

def isDigit (s : UInt8) : Bool := 48 ≤ s && s ≤ 57

def isHexDigit (s : UInt8) : Bool :=
  (48 ≤ s && s ≤ 57) || (65 ≤ s && s ≤ 70) || (97 ≤ s && s ≤ 102)

/-- One of `!$&'()*+,;=`. -/
def isSubDelims (s : UInt8) : Bool :=
  s == 33 || s == 36 || s == 38 || s == 39 || s == 40 || s == 41 || s == 42 || s == 43 || s == 44 ||
    s == 59 || s == 61

/-- A letter, a digit or one of `-._~`. -/
def isUnreserved (s : UInt8) : Bool :=
  isLetter s || isDigit s || s == 45 || s == 46 || s == 95 || s == 126

/-- `isPChar`, by two bitmaps. -/
def isPChar (s : UInt8) : Bool :=
  if 128 ≤ s then false
  else
    let mask : UInt64 := if s < 64 then 0x2fff7fd200000000 else 0x47fffffe87ffffff
    (mask >>> (s &&& 63).toUInt64) &&& 1 == 1

/-- `UriCharacterResult`, with the bytes and what is left after them. -/
inductive CharacterResult
  | accepted (bytes rest : List UInt8)
  | needMore
  | invalid

/-- `consumePctEncoded` -/
def consumePctEncoded : List UInt8 → CharacterResult
  | [] => .invalid
  | c :: p =>
    if c ≠ 37 then .invalid
    else
      match p with
      | [] => .needMore
      | a :: p =>
        if !isHexDigit a then .invalid
        else
          match p with
          | [] => .needMore
          | b :: p => if !isHexDigit b then .invalid else .accepted [c, a, b] p

/-- `consumePctEncodedZ` -/
def consumePctEncodedZ : List UInt8 → Option (List UInt8)
  | c :: a :: b :: p => if c = 37 && isHexDigit a && isHexDigit b then some p else none
  | _ => none

/-- `decodeHex` of a digit. -/
def decodeHex (s : UInt8) : ℕ :=
  if 48 ≤ s && s ≤ 57 then s.toNat - 48
  else if 65 ≤ s && s ≤ 70 then s.toNat - 65 + 10
  else s.toNat - 97 + 10

/-- `encodeHex` -/
def encodeHex (s : UInt8) : UInt8 := if s ≤ 9 then 48 + s else 65 + s - 10

/-! ### Components -/

/-- `URIComponent`; the groups of an IPv6 address are in written order. -/
inductive UriComponent
  | schema (raw : List UInt8)
  | userInfo (raw : List UInt8)
  | hostIPv4 (u32 : ℕ)
  | hostIPv6 (ipv6 : List ℕ)
  | hostDNS (raw : List UInt8)
  | port (i32 : ℕ)
  | pathElement (raw : List UInt8)
  | path (raw : List UInt8)
  | queryElement (raw raw2 : List UInt8)
  | query (raw : List UInt8)
  | fragment (raw : List UInt8)
  deriving DecidableEq

/-- What a parser gave to the callback, and what is left. -/
abbrev Parsed := Option (List UriComponent × List UInt8)

def isSchemeChar (s : UInt8) : Bool :=
  isLetter s || isDigit s || s == 43 || s == 45 || s == 46

/-- `uriParseScheme` -/
def uriParseScheme (ptr : List UInt8) : Parsed :=
  if ptr.head?.any isLetter then
    some ([.schema (ptr.takeWhile isSchemeChar)], ptr.dropWhile isSchemeChar)
  else none

/-! ### Hosts -/

/-- The number with these decimal digits. -/
def decimal (digits : List UInt8) : ℕ := digits.foldl (fun n c => n * 10 + (c.toNat - 48)) 0

/-- The number with these hexadecimal digits. -/
def hexadecimal (digits : List UInt8) : ℕ := digits.foldl (fun n c => n <<< 4 ||| decodeHex c) 0

/-- An octet in decimal digits; `strict` is without leading zeros. -/
def parseOctet (strict : Bool) (p : List UInt8) : Option (ℕ × List UInt8) :=
  let digits := p.takeWhile isDigit
  if digits.length > 3 then none
  else if digits = [] || decimal digits > 255 then none
  else if strict && digits.length > 1 && digits.head? == some 48 then none
  else some (decimal digits, p.dropWhile isDigit)

/-- `n` more octets, each after a dot. -/
def parseOctets (strict : Bool) : ℕ → List UInt8 → Option (List ℕ × List UInt8)
  | 0, p => some ([], p)
  | n + 1, c :: p =>
    if c ≠ 46 then none
    else
      match parseOctet strict p with
      | none => none
      | some (octet, p) =>
        match parseOctets strict n p with
        | none => none
        | some (octets, p) => some (octet :: octets, p)
  | _ + 1, [] => none

/-- Four octets. -/
def parseQuad (strict : Bool) (p : List UInt8) : Option (List ℕ × List UInt8) :=
  match parseOctet strict p with
  | none => none
  | some (octet, p) =>
    match parseOctets strict 3 p with
    | none => none
    | some (octets, p) => some (octet :: octets, p)

/-- What `uriParseIpLiteral` knows of the address. -/
structure IpGroups where
  groups : List ℕ
  tail : List ℕ
  compression : Bool

/-- `headCount + tailCount` -/
def IpGroups.count (ip : IpGroups) : ℕ := ip.groups.length + ip.tail.length

/-- More groups, after the compression or before it. -/
def IpGroups.add (values : List ℕ) (ip : IpGroups) : IpGroups :=
  if ip.compression then { ip with tail := ip.tail ++ values }
  else { ip with groups := ip.groups ++ values }

/-- The loop of `uriParseIpLiteral`; what is left is at the bracket. -/
def ipLiteralLoop : ℕ → IpGroups → List UInt8 → Option (IpGroups × List UInt8)
  | 0, _, _ => none
  | fuel + 1, ip, p =>
    if p.head? = some 93 then some (ip, p)
    else if ip.count = 8 then none
    else
      let digits := p.takeWhile isHexDigit
      let rest := p.dropWhile isHexDigit
      if digits.length > 4 || digits = [] then none
      else if rest.head? = some 46 then
        match parseQuad false p with
        | some ([o₀, o₁, o₂, o₃], p) =>
          if p.head? ≠ some 93 || ip.count > 6 then none
          else some (ip.add [o₀ <<< 8 ||| o₁, o₂ <<< 8 ||| o₃], p)
        | _ => none
      else
        let ip := ip.add [hexadecimal digits]
        match rest with
        | [] => none
        | c :: rest =>
          if c = 58 then
            if rest.head? = some 58 then
              if ip.compression then none
              else ipLiteralLoop fuel { ip with compression := true } (rest.drop 1)
            else if rest.head?.any isHexDigit then ipLiteralLoop fuel ip rest
            else none
          else if c ≠ 93 then none
          else ipLiteralLoop fuel ip (c :: rest)

/-- The part of `uriParseIpLiteral` before the loop. -/
def ipLiteralBegin (ptr : List UInt8) : Option (IpGroups × List UInt8) :=
  if ptr.head? = some 58 then
    if (ptr.drop 1).head? ≠ some 58 then none else some (⟨[], [], true⟩, ptr.drop 2)
  else some (⟨[], [], false⟩, ptr)

/-- A compressed address stands for at least one more group; the others have all eight. -/
def IpGroups.complete (ip : IpGroups) : Bool :=
  if ip.compression then ip.count ≤ 7 else ip.groups.length = 8

/-- The part of `uriParseIpLiteral` after the loop. -/
def ipLiteralEnd (ip : IpGroups) (p : List UInt8) : Parsed :=
  if !ip.complete then none
  else some ([.hostIPv6 (ip.groups ++ List.replicate (8 - ip.count) 0 ++ ip.tail)], p.drop 1)

/-- `uriParseIpLiteral` -/
def uriParseIpLiteral (ptr : List UInt8) : Parsed :=
  match ipLiteralBegin ptr with
  | none => none
  | some (ip, p) =>
    match ipLiteralLoop (p.length + 1) ip p with
    | none => none
    | some (ip, p) => ipLiteralEnd ip p

/-- `spanIsIpv4` -/
def spanIsIpv4 (span : List UInt8) : Option ℕ :=
  match parseQuad true span with
  | some ([o₀, o₁, o₂, o₃], []) => some (o₀ ||| o₁ <<< 8 ||| o₂ <<< 16 ||| o₃ <<< 24)
  | _ => none

/-- A character that is `ok` or escaped. -/
def charZ (ok : UInt8 → Bool) : List UInt8 → Option (List UInt8)
  | [] => none
  | c :: p => if ok c then some p else consumePctEncodedZ (c :: p)

/-- A character of a host. -/
def isHostChar (s : UInt8) : Bool := isUnreserved s || isSubDelims s

/-- `uriParseRegnameHost` -/
def uriParseRegnameHost (ptr : List UInt8) : Parsed :=
  let (host, p) := Grammar.span (charZ isHostChar) ptr
  if host ≠ [] then
    match spanIsIpv4 host with
    | some ipv4 => some ([.hostIPv4 ipv4], p)
    | none => some ([.hostDNS host], p)
  else some ([], p)

/-- The loop over the digits of a port. -/
def portLoop (port : ℕ) : List UInt8 → Option (ℕ × List UInt8)
  | [] => some (port, [])
  | c :: p =>
    if isDigit c then
      if port * 10 + (c.toNat - 48) > 65535 then none else portLoop (port * 10 + (c.toNat - 48)) p
    else some (port, c :: p)

/-- The part of `uriParseAuthority` that is about the port. -/
def uriParsePort (ptr : List UInt8) : Parsed :=
  match ptr with
  | 58 :: digits =>
    match portLoop 0 digits with
    | none => none
    | some (port, p) => some (if p ≠ digits then [.port port] else [], p)
  | p => some ([], p)

/-- A character of a userinfo. -/
def isUserChar (s : UInt8) : Bool := isHostChar s || s == 58

/-- The part of `uriParseAuthority` that is about the user. -/
def uriParseUserInfo (ptr : List UInt8) : List UriComponent × List UInt8 :=
  match Grammar.span (charZ isUserChar) ptr with
  | (userInfo, 64 :: p) => ([.userInfo userInfo], p)
  | _ => ([], ptr)

/-- The part of `uriParseAuthority` that is about the host. -/
def uriParseHost (ptr : List UInt8) : Parsed :=
  match ptr with
  | 91 :: p => uriParseIpLiteral p
  | p => uriParseRegnameHost p

/-- `uriParseAuthority` -/
def uriParseAuthority (ptr : List UInt8) : Parsed :=
  match uriParseHost (uriParseUserInfo ptr).2 with
  | none => none
  | some (host, p) =>
    match uriParsePort p with
    | none => none
    | some (port, p) => some ((uriParseUserInfo ptr).1 ++ host ++ port, p)

/-! ### Paths, queries and fragments -/

/-- The loop that the parsers of paths, queries and fragments share: `plain` is done with a byte that is
`ok`, and `escaped` with the bytes of an escaped one. -/
def charLoop {σ : Type} (ok : UInt8 → Bool) (plain : σ → UInt8 → σ) (escaped : σ → List UInt8 → σ) :
    ℕ → σ → List UInt8 → Scan UInt8 σ
  | 0, st, p => .ok st p
  | _ + 1, st, [] => .ok st []
  | fuel + 1, st, c :: p =>
    if ok c then charLoop ok plain escaped fuel (plain st c) p
    else
      match consumePctEncoded (c :: p) with
      | .accepted bytes rest => charLoop ok plain escaped fuel (escaped st bytes) rest
      | .needMore => .needMoreData
      | .invalid => .ok st (c :: p)

/-- `charLoop` up to where it ends or needs more. -/
def charHold {σ : Type} (ok : UInt8 → Bool) (plain : σ → UInt8 → σ) (escaped : σ → List UInt8 → σ) :
    ℕ → σ → List UInt8 → σ × List UInt8
  | 0, st, p => (st, p)
  | _ + 1, st, [] => (st, [])
  | fuel + 1, st, c :: p =>
    if ok c then charHold ok plain escaped fuel (plain st c) p
    else
      match consumePctEncoded (c :: p) with
      | .accepted bytes rest => charHold ok plain escaped fuel (escaped st bytes) rest
      | .needMore | .invalid => (st, c :: p)

/-- The variables of `uriParsePath`: the bytes from `begin`, from `*ptr` and from `lastElement` on. -/
structure PathState where
  out : List UriComponent
  path : List UInt8
  since : List UInt8
  element : List UInt8

def PathState.push (bytes : List UInt8) (st : PathState) : PathState :=
  { st with path := st.path ++ bytes, since := st.since ++ bytes, element := st.element ++ bytes }

/-- A slash ends an element. -/
def PathState.slash (st : PathState) : PathState :=
  { out := if st.since ≠ [] then st.out ++ [.pathElement st.element] else st.out
    path := st.path ++ [47]
    since := if st.since ≠ [] then [47] else st.since ++ [47]
    element := [] }

def PathState.plain (st : PathState) (c : UInt8) : PathState := if c = 47 then st.slash else st.push [c]

def isPathChar (s : UInt8) : Bool := isPChar s || s == 47

/-- `uriParsePath` -/
def uriParsePath (uriOnly : Bool) (ptr : List UInt8) : Scan UInt8 (List UriComponent) :=
  (charLoop isPathChar PathState.plain (fun st bytes => st.push bytes) ptr.length
      ⟨[], [], [], []⟩ ptr).bind fun st p =>
    if p = [] && !uriOnly then .needMoreData
    else if st.since ≠ [] then .ok (st.out ++ [.pathElement st.element, .path st.path]) p
    else .ok st.out p

/-- `uriParsePath` where it needs more: what was delivered, and the bytes from `*ptr` on. -/
def uriParsePathHeld (ptr : List UInt8) : List UriComponent × List UInt8 :=
  let (st, p) := charHold isPathChar PathState.plain (fun st bytes => st.push bytes) ptr.length
    ⟨[], [], [], []⟩ ptr
  (st.out, st.since ++ p)

/-- The variables of `uriParseQuery`: the bytes from `begin`, from `*ptr`, from `lastName` and from
`lastValue` on. -/
structure QueryState where
  out : List UriComponent
  query : List UInt8
  since : List UInt8
  name : List UInt8
  nameSize : ℕ
  value : Option (List UInt8)

def QueryState.push (bytes : List UInt8) (st : QueryState) : QueryState :=
  { st with
    query := st.query ++ bytes
    since := st.since ++ bytes
    name := st.name ++ bytes
    value := st.value.map (· ++ bytes) }

/-- `=` ends a name. -/
def QueryState.equal (st : QueryState) : QueryState :=
  { st.push [61] with nameSize := st.name.length, value := some [] }

/-- The element before `p`. -/
def QueryState.last (st : QueryState) : List UriComponent :=
  match st.value with
  | some value => [.queryElement (st.name.take st.nameSize) value]
  | none => []

/-- `&` ends an element. -/
def QueryState.ampersand (st : QueryState) : QueryState :=
  { out := st.out ++ st.last
    query := st.query ++ [38]
    since := if st.value.isSome then [38] else st.since ++ [38]
    name := []
    nameSize := 0
    value := none }

def QueryState.plain (st : QueryState) (c : UInt8) : QueryState :=
  if c = 61 then st.equal else if c = 38 then st.ampersand else st.push [c]

/-- `=` and `&` are among the bytes of `isPChar`. -/
def isQueryChar (s : UInt8) : Bool := isPChar s || s == 47 || s == 63

/-- `uriParseQuery` -/
def uriParseQuery (uriOnly : Bool) (ptr : List UInt8) : Scan UInt8 (List UriComponent) :=
  (charLoop isQueryChar QueryState.plain (fun st bytes => st.push bytes) ptr.length
      ⟨[], [], [], [], 0, none⟩ ptr).bind fun st p =>
    if p = [] && !uriOnly then .needMoreData
    else if st.since ≠ [] then .ok (st.out ++ st.last ++ [.query st.query]) p
    else .ok st.out p

/-- `uriParseQuery` where it needs more: what was delivered, and the bytes from `*ptr` on. -/
def uriParseQueryHeld (ptr : List UInt8) : List UriComponent × List UInt8 :=
  let (st, p) := charHold isQueryChar QueryState.plain (fun st bytes => st.push bytes) ptr.length
    ⟨[], [], [], [], 0, none⟩ ptr
  (st.out, st.since ++ p)

/-- `uriParseFragment` -/
def uriParseFragment (uriOnly : Bool) (ptr : List UInt8) : Scan UInt8 (List UriComponent) :=
  (charLoop isQueryChar (fun since c => since ++ [c]) (· ++ ·) ptr.length [] ptr).bind fun since p =>
    if p = [] && !uriOnly then .needMoreData
    else if since ≠ [] then .ok [.fragment since] p
    else .ok [] p

/-- The result is `ParserResultOk`. -/
def parserOk : Scan UInt8 (List UriComponent) → Parsed
  | .ok out p => some (out, p)
  | .needMoreData => none
  | .error => none

/-! ### Whole URIs -/

/-- `uriParseHierPart` -/
def uriParseHierPart (ptr : List UInt8) : Parsed :=
  match ptr with
  | 47 :: 47 :: p =>
    match uriParseAuthority p with
    | none => none
    | some (out, p) =>
      if p.head? = some 47 then (parserOk (uriParsePath true p)).map fun (path, p) => (out ++ path, p)
      else some (out, p)
  | p => parserOk (uriParsePath true p)

/-- What begins with `mark`, if it does. -/
def uriParseMarked (mark : UInt8) (parse : List UInt8 → Scan UInt8 (List UriComponent))
    (ptr : List UInt8) : Parsed :=
  match ptr with
  | c :: p => if c = mark then parserOk (parse p) else some ([], c :: p)
  | [] => some ([], [])

/-- The part of `uriParse` after the path. -/
def uriParseTail (ptr : List UInt8) : Option (List UriComponent) :=
  match uriParseMarked 63 (uriParseQuery true) ptr with
  | none => none
  | some (query, p) =>
    match uriParseMarked 35 (uriParseFragment true) p with
    | some (fragment, []) => some (query ++ fragment)
    | _ => none

/-- `uriParse` -/
def uriParse (uri : List UInt8) : Option (List UriComponent) :=
  match uriParseScheme uri with
  | some (scheme, 58 :: p) =>
    match uriParseHierPart p with
    | none => none
    | some (hierPart, p) => (uriParseTail p).map fun out => scheme ++ hierPart ++ out
  | _ => none

end Uri

end Asyncio

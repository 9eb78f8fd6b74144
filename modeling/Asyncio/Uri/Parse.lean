import Asyncio.Uri.Split

/-!
# What `uriParse` accepts and delivers

The parser of each part finds the span that `splitUri` finds and delivers its components. Where it fails,
so does `splitUri`, or what is left begins with a percent sign that nothing can take.

## Main results

* `uriParse_eq` — the components, by the parts
* `uri_decomposition` — what is accepted are the URIs of the grammar, taken apart
-/

namespace Asyncio

namespace Uri

open Computability Grammar Rfc3986 List Option

/-! ### Authorities -/

def userOut : Option (List UInt8) → List UriComponent
  | none => []
  | some u => [.userInfo u]

/-- A port without digits is not delivered. -/
def portOut : Option (List UInt8) → List UriComponent
  | none => []
  | some digits => if digits = [] then [] else [.port (value digits)]

/-- What is delivered for a host. -/
def hostOut (host : List UInt8) : List UriComponent :=
  if host.head? = some 91 then ((uriParseIpLiteral (host.drop 1)).map Prod.fst).getD []
  else if host = [] then []
  else
    match spanIsIpv4 host with
    | some ipv4 => [.hostIPv4 ipv4]
    | none => [.hostDNS host]

def authorityOut (a : Authority) : List UriComponent :=
  userOut a.userinfo ++ hostOut a.host ++ portOut a.port

theorem uriParseUserInfo_eq (p : List UInt8) :
    uriParseUserInfo p = (userOut (splitUser p).1, (splitUser p).2) := by
  fun_cases uriParseUserInfo p with
  | case1 user rest hspan =>
    rw [splitUser, hspan]
    rfl
  | case2 hne =>
    rw [splitUser]
    split
    · next hspan => exact absurd hspan (hne _ _)
    · rfl

theorem uriParsePort_eq (p : List UInt8) :
    uriParsePort p = (splitPort p).map fun v => (portOut v.1, v.2) := by
  rcases p with _ | ⟨c, digits⟩
  · rfl
  by_cases hc : c = 58
  · subst hc
    rw [uriParsePort, splitPort]
    have hloop : portLoop 0 digits = if value (digits.takeWhile isDigit) ≤ 65535 then
        some (value (digits.takeWhile isDigit), digits.dropWhile isDigit) else none :=
      portLoop_eq (Nat.zero_le _) digits
    rw [hloop]
    by_cases hvalue : value (digits.takeWhile isDigit) ≤ 65535
    · have hiff : digits.dropWhile isDigit ≠ digits ↔ digits.takeWhile isDigit ≠ [] := by
        have happend := @takeWhile_append_dropWhile _ isDigit digits
        constructor
        · intro hne hnil
          rw [hnil, nil_append] at happend
          exact hne happend
        · intro hne heq
          rw [heq] at happend
          exact hne (append_left_eq_self.mp happend)
      show _ = Option.map _ (if value (digits.takeWhile isDigit) ≤ 65535 then _ else _)
      rw [if_pos hvalue, if_pos hvalue, map_some, portOut]
      dsimp only
      simp only [hiff, ne_eq, ite_not]
    · show _ = Option.map _ (if value (digits.takeWhile isDigit) ≤ 65535 then _ else _)
      rw [if_neg hvalue, if_neg hvalue]
      rfl
  · have hport : uriParsePort (c :: digits) = some ([], c :: digits) := by
      rw [uriParsePort]
      rintro _ ⟨⟩
      exact hc rfl
    have hsplit : splitPort (c :: digits) = some (none, c :: digits) := by
      rw [splitPort]
      rintro _ ⟨⟩
      exact hc rfl
    rw [hport, hsplit]
    rfl

theorem uriParseRegnameHost_eq (p : List UInt8) : uriParseRegnameHost p =
    some (hostOut (span (charZ isHostChar) p).1, (span (charZ isHostChar) p).2) := by
  have hname := (reads_host.span_spec p).1
  rw [← regName_eq] at hname
  unfold uriParseRegnameHost hostOut
  rw [if_neg (head_of_mem_regName hname)]
  by_cases hnil : (span (charZ isHostChar) p).1 = []
  · simp [hnil]
  · simp only [hnil, ne_eq, not_false_eq_true, if_true, if_false]
    cases spanIsIpv4 (span (charZ isHostChar) p).1 with
    | none => rfl
    | some ipv4 => rfl

theorem uriParseHost_eq (p : List UInt8) :
    uriParseHost p = (splitHost p).map fun v => (hostOut v.1, v.2) := by
  unfold uriParseHost
  split
  · next q =>
    cases hparse : uriParseIpLiteral q with
    | none => rw [splitHost, hparse, map_none, map_none]
    | some v =>
      obtain ⟨y, -, hy, hsplit⟩ := splitHost_literal hparse
      have hout : hostOut (91 :: (y ++ [93])) = v.1 := by
        rw [hostOut, if_pos (head?_cons ..), drop_succ_cons, drop_zero, hy]
        rfl
      rw [hsplit, map_some, hout]
  · next hbracket =>
    have hhead : p.head? ≠ some 91 := by
      intro h
      obtain ⟨q, rfl⟩ := head?_eq_some_iff.mp h
      exact hbracket q rfl
    rw [splitHost_name hhead]
    exact uriParseRegnameHost_eq p

theorem uriParseAuthority_eq (p : List UInt8) :
    uriParseAuthority p = (splitAuthority p).map fun v => (authorityOut v.1, v.2) := by
  rw [uriParseAuthority, splitAuthority, uriParseUserInfo_eq, uriParseHost_eq]
  cases splitHost (splitUser p).2 with
  | none => rfl
  | some v =>
    rw [map_some]
    dsimp only
    rw [uriParsePort_eq]
    cases splitPort v.2 with
    | none => rfl
    | some w => rfl

/-! ### Paths, queries and fragments -/

/-- What is delivered for the authority and the path. -/
def hierOut (authority : Option Authority) (path : List UInt8) : List UriComponent :=
  (authority.map authorityOut).getD [] ++ pathOut path

theorem uriParseHierPart_cases (p : List UInt8) :
    (splitHier p = none ∧ uriParseHierPart p = none) ∨
      ∃ authority path rest, splitHier p = some (authority, path, rest) ∧
        (uriParseHierPart p = some (hierOut authority path, rest) ∨
          (uriParseHierPart p = none ∧ ∃ t, rest = 37 :: t)) := by
  unfold uriParseHierPart
  split
  · next p =>
    rw [uriParseAuthority_eq]
    show (Option.map _ (splitAuthority p) = none ∧ _) ∨
      ∃ authority path rest, Option.map _ (splitAuthority p) = some (authority, path, rest) ∧ _
    cases splitAuthority p with
    | none => exact .inl ⟨rfl, rfl⟩
    | some v =>
      refine .inr ?_
      rw [map_some, map_some]
      dsimp only
      by_cases hslash : v.2.head? = some 47
      · rw [if_pos hslash, if_pos hslash]
        refine ⟨some v.1, _, _, rfl, ?_⟩
        obtain hparse | ⟨hparse, hpercent⟩ := parserOk_cases (uriParsePath_eq true) v.2
        · rw [hparse]
          exact .inl rfl
        · rw [hparse]
          exact .inr ⟨rfl, hpercent⟩
      · rw [if_neg hslash, if_neg hslash]
        refine ⟨some v.1, [], v.2, rfl, .inl ?_⟩
        rw [hierOut, map_some, getD_some, pathOut, if_pos rfl, append_nil]
  · next hslashes =>
    refine .inr ⟨none, _, _, ?_, parserOk_cases (uriParsePath_eq true) p⟩
    unfold splitHier
    split
    · exact absurd rfl (hslashes _)
    · rfl

theorem uriParseMarked_cases {mark : UInt8}
    {parse : List UInt8 → Incremental.Scan UInt8 (List UriComponent)} {out : List UInt8 → List UriComponent}
    (hparse : ∀ p, parserOk (parse p) =
        some (out (span (charZ isQueryChar) p).1, (span (charZ isQueryChar) p).2) ∨
      (parserOk (parse p) = none ∧ ∃ t, (span (charZ isQueryChar) p).2 = 37 :: t)) (p : List UInt8):
    uriParseMarked mark parse p =
        some (((splitMarked mark p).1.map out).getD [], (splitMarked mark p).2) ∨
      (uriParseMarked mark parse p = none ∧ ∃ t, (splitMarked mark p).2 = 37 :: t) := by
  cases p with
  | nil => exact .inl rfl
  | cons c p =>
    rw [uriParseMarked, splitMarked]
    split
    · exact hparse p
    · exact .inl rfl

theorem splitMarked_percent {mark : UInt8} (hmark : mark ≠ 37) (t : List UInt8) :
    splitMarked mark (37 :: t) = (none, 37 :: t) := if_neg hmark.symm

theorem splitTail_percent (t : List UInt8) : splitTail (37 :: t) = none := by
  rw [splitTail, splitMarked_percent (by decide), splitMarked_percent (by decide)]
  rfl

/-! ### Whole URIs -/

/-- What is delivered for a URI, without the elements of its query. -/
def partsOut (parts : Parts) : List UriComponent :=
  .schema parts.scheme :: (hierOut parts.authority parts.path ++
    ((parts.query.map fun q => if q = [] then [] else [.query q]).getD [] ++
      (parts.fragment.map fragmentOut).getD []))

theorem filter_pathOut (x : List UInt8) : (pathOut x).filter notElement = pathOut x := by
  refine filter_eq_self.mpr fun c hc => ?_
  unfold pathOut at hc
  split at hc
  · cases hc
  · obtain hc | hc := mem_append.mp hc
    · obtain ⟨element, -, rfl⟩ := mem_map.mp hc
      rfl
    · rw [mem_singleton.mp hc]
      rfl

/-- What a host is delivered as: an address if it is four octets without leading zeros, and otherwise a
name. -/
inductive HostDelivers : List UInt8 → List UriComponent → Prop
  | none : HostDelivers [] []
  | literal {x : List UInt8} {out : List UriComponent} (h : uriParseIpLiteral (x ++ [93]) = some (out, [])) :
    HostDelivers (91 :: (x ++ [93])) out
  | ipv4 {a b c d : ℕ} (ha : a ≤ 255) (hb : b ≤ 255) (hc : c ≤ 255) (hd : d ≤ 255) :
    HostDelivers (dotted a b c d) [.hostIPv4 (a + 2 ^ 8 * b + 2 ^ 16 * c + 2 ^ 24 * d)]
  | name {x : List UInt8} (hne : x ≠ []) (hname : x ∈ regName) (hipv4 : x ∉ ipv4Address) :
    HostDelivers x [.hostDNS x]

theorem ipv4_value {a b c d : ℕ} (ha : a ≤ 255) (hb : b ≤ 255) (hc : c ≤ 255) :
    a ||| b <<< 8 ||| c <<< 16 ||| d <<< 24 = a + 2 ^ 8 * b + 2 ^ 16 * c + 2 ^ 24 * d := by
  have hor {x y k : ℕ} (hx : x < 2 ^ k) : x ||| y <<< k = x + 2 ^ k * y := by
    rw [Nat.lor_comm, ← Nat.shiftLeft_add_eq_or_of_lt hx, Nat.shiftLeft_eq, Nat.mul_comm, Nat.add_comm]
  rw [hor (k := 8) (by omega), hor (k := 16) (by omega), hor (k := 24) (by omega)]

theorem hostDelivers_hostOut {x : List UInt8} (hx : x ∈ host ipLiteral) : HostDelivers x (hostOut x) := by
  obtain ⟨y, ⟨out, hy⟩, rfl⟩ | hx := mem_host_iff.mp hx
  · have hout : hostOut (91 :: (y ++ [93])) = out := by
      rw [hostOut, if_pos (head?_cons ..), drop_succ_cons, drop_zero, hy]
      rfl
    rw [hout]
    exact .literal hy
  · rw [hostOut, if_neg (head_of_mem_regName hx)]
    split
    · next hnil =>
      rw [hnil]
      exact .none
    next hne =>
    cases hipv4 : spanIsIpv4 x with
    | some v =>
      obtain ⟨a, b, c, d, ha, hb, hc, hd, rfl, rfl⟩ := spanIsIpv4_iff.mp hipv4
      rw [ipv4_value ha hb hc]
      exact .ipv4 ha hb hc hd
    | none =>
      refine .name hne hx ?_
      rintro ⟨a, b, c, d, ha, hb, hc, hd, rfl⟩
      rw [spanIsIpv4_iff.mpr ⟨a, b, c, d, ha, hb, hc, hd, rfl, rfl⟩] at hipv4
      cases hipv4

theorem HostDelivers.filter {x : List UInt8} {out : List UriComponent} (h : HostDelivers x out) :
    out.filter notElement = out := by
  cases h with
  | none => rfl
  | literal h =>
    obtain ⟨groups, rfl, -, -⟩ := uriParseIpLiteral_groups h
    rfl
  | ipv4 ha hb hc hd => rfl
  | name hne hname hipv4 => rfl

theorem filter_authorityOut {a : Authority} (ha : a.Valid ipLiteral) :
    (authorityOut a).filter notElement = authorityOut a := by
  have hhost := (hostDelivers_hostOut ha.host).filter
  have huser : (userOut a.userinfo).filter notElement = userOut a.userinfo := by
    cases a.userinfo with
    | none => rfl
    | some u => rfl
  have hport : (portOut a.port).filter notElement = portOut a.port := by
    cases a.port with
    | none => rfl
    | some digits =>
      rw [portOut]
      split
      · rfl
      · rfl
  rw [authorityOut, filter_append, filter_append, huser, hhost, hport]

theorem filter_hierOut {authority : Option Authority} (ha : ∀ a, authority = some a → a.Valid ipLiteral)
    (path : List UInt8) : (hierOut authority path).filter notElement = hierOut authority path := by
  rw [hierOut, filter_append, filter_pathOut]
  cases authority with
  | none => rfl
  | some a =>
    rw [map_some, getD_some, filter_authorityOut (ha a rfl)]

theorem filter_tailOut (q f : Option (List UInt8)) :
    ((q.map queryOut).getD [] ++ (f.map fragmentOut).getD []).filter notElement =
      (q.map fun q => if q = [] then [] else [.query q]).getD [] ++ (f.map fragmentOut).getD [] := by
  have hfragment : ((f.map fragmentOut).getD []).filter notElement = (f.map fragmentOut).getD [] := by
    cases f with
    | none => rfl
    | some f =>
      rw [map_some, getD_some, fragmentOut]
      split
      · rfl
      · rfl
  rw [filter_append, hfragment]
  cases q with
  | none => rfl
  | some q => rw [map_some, getD_some, filter_queryOut, map_some, getD_some]

theorem uriParseTail_eq (p : List UInt8) :
    uriParseTail p =
      (splitTail p).map fun v => (v.1.map queryOut).getD [] ++ (v.2.map fragmentOut).getD [] := by
  rw [uriParseTail, splitTail]
  obtain hquery | ⟨hquery, t, hpercent⟩ := @uriParseMarked_cases 63 _ _ (parserOk_cases (uriParseQuery_eq true)) p
  · rw [hquery]
    dsimp only
    obtain hfragment | ⟨hfragment, t, hpercent⟩ :=
      @uriParseMarked_cases 35 _ _ (parserOk_cases (uriParseFragment_eq true)) (splitMarked 63 p).2
    · rw [hfragment]
      cases hrest : (splitMarked 35 (splitMarked 63 p).2).2 with
      | nil =>
        rw [if_pos rfl, map_some]
      | cons c t =>
        rw [if_neg (cons_ne_nil _ _)]
        rfl
    · rw [hfragment, hpercent, if_neg (cons_ne_nil _ _)]
      rfl
  · rw [hquery, hpercent, splitMarked_percent (by decide), if_neg (cons_ne_nil _ _)]
    rfl

/-- **The components, by the parts.** -/
theorem uriParse_eq (s : List UInt8) :
    (uriParse s).map (List.filter notElement) = (splitUri s).map partsOut := by
  rw [uriParse, uriParseScheme, splitUri]
  by_cases hletter : s.head?.any isLetter = true
  · rw [if_pos hletter, if_pos hletter]
    generalize s.dropWhile isSchemeChar = body
    split
    · next p heq =>
      cases heq
      show _ = Option.map _ (splitBody _ p)
      rw [splitBody]
      obtain ⟨hsplit, hparse⟩ | ⟨authority, path, rest, hsplit, hparse⟩ := uriParseHierPart_cases p
      · rw [hsplit, hparse]
        rfl
      · obtain ⟨ha, -, -⟩ := splitHier_eq_some hsplit
        rw [hsplit]
        dsimp only
        obtain hparse | ⟨hparse, t, rfl⟩ := hparse
        · rw [hparse]
          dsimp only
          rw [uriParseTail_eq, Option.map_map, Option.map_map, Option.map_map]
          refine congrArg (fun f => Option.map f (splitTail rest)) (funext fun v => ?_)
          show List.filter notElement _ = partsOut _
          rw [filter_append, filter_tailOut, filter_append, filter_hierOut ha, partsOut,
            append_assoc]
          rfl
        · rw [hparse, splitTail_percent]
          rfl
    · next hcolon =>
      split
      · exact absurd rfl (hcolon _ _)
      · rfl
  · rw [if_neg hletter, if_neg hletter]
    rfl

/-- **`uriParse` accepts the URIs of the grammar**, where the literals of hosts are those of
`uriParseIpLiteral`, and delivers the components of the only way to take one apart. -/
theorem uri_decomposition (s : List UInt8) :
    ((uriParse s).isSome ↔ s ∈ uri ipLiteral) ∧
      ∀ out, uriParse s = some out →
        ∃ parts : Parts, parts.Valid ipLiteral ∧ parts.text = s ∧
          (∀ other : Parts, other.Valid ipLiteral → other.text = s → other = parts) ∧
          out.filter notElement = partsOut parts ∧
          ∀ a, parts.authority = some a → HostDelivers a.host (hostOut a.host) := by
  have heq := uriParse_eq s
  constructor
  · rw [mem_uri_iff]
    constructor
    · intro hsome
      obtain ⟨out, hout⟩ := isSome_iff_exists.mp hsome
      rw [hout] at heq
      obtain ⟨parts, hparts, -⟩ := map_eq_some_iff.mp heq.symm
      exact ⟨parts, splitUri_eq_some hparts⟩
    · rintro ⟨parts, hparts, rfl⟩
      rw [splitUri_text hparts] at heq
      obtain ⟨out, hout, -⟩ := map_eq_some_iff.mp heq
      exact isSome_iff_exists.mpr ⟨out, hout⟩
  · intro out hout
    rw [hout] at heq
    obtain ⟨parts, hparts, hpartsOut⟩ := map_eq_some_iff.mp heq.symm
    obtain ⟨hvalid, htext⟩ := splitUri_eq_some hparts
    refine ⟨parts, hvalid, htext, ?_, hpartsOut.symm, ?_⟩
    · rintro other hother rfl
      rw [splitUri_text hother] at hparts
      exact Option.some.inj hparts
    · intro a ha
      exact hostDelivers_hostOut (hvalid.authority a ha).host

end Uri

end Asyncio

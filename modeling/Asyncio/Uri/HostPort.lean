import Asyncio.Uri.Literals
import Asyncio.Uri.Parse

/-!
# Hosts and ports on their own

`uriParseHostPort` reads a host and a port, and nothing else. It agrees with what `uriParse` makes of an
authority (`hostPort_agrees`): both find the same host and the same port.
-/

namespace Asyncio

namespace Uri

open Computability Grammar Rfc3986 List Option

/-! ### The code -/

/-- The part of `uriParseHostPort` that is about the host. -/
def hostPortHost (hostport : List UInt8) : Parsed :=
  match hostport with
  | 91 :: p => uriParseIpLiteral p
  | p =>
    match uriParseRegnameHost p with
    | none => none
    | some (out, rest) => if rest = p then none else some (out, rest)

/-- `uriParseHostPort` -/
def uriParseHostPort (hostport : List UInt8) : Option (List UriComponent) :=
  match hostPortHost hostport with
  | none => none
  | some (out, 58 :: p) =>
    if p.head?.any isDigit then
      match portLoop 0 p with
      | some (port, []) => some (out ++ [.port port])
      | _ => none
    else none
  | some (out, p) => if p = [] then some out else none

/-- The component of a host. -/
def UriComponent.isHost : UriComponent → Bool
  | .hostIPv4 _ => true
  | .hostIPv6 _ => true
  | .hostDNS _ => true
  | _ => false

/-- The components that a host and a port do not have. -/
def UriComponent.isOther : UriComponent → Bool
  | .userInfo _ => true
  | .pathElement _ => true
  | .path _ => true
  | .queryElement _ _ => true
  | .query _ => true
  | .fragment _ => true
  | _ => false

/-! ### What is read -/

theorem hostPortHost_eq (h : List UInt8) :
    hostPortHost h = (splitHost h).bind fun v => if v.1 = [] then none else some (hostOut v.1, v.2) := by
  unfold hostPortHost
  split
  · next q =>
    cases hparse : uriParseIpLiteral q with
    | none =>
      rw [splitHost, hparse]
      rfl
    | some v =>
      obtain ⟨y, -, hy, hsplit⟩ := splitHost_literal hparse
      have hout : hostOut (91 :: (y ++ [93])) = v.1 := by
        rw [hostOut, if_pos (head?_cons ..), drop_succ_cons, drop_zero, hy]
        rfl
      rw [hsplit, bind_some, if_neg (cons_ne_nil _ _), hout]
  · next hbracket =>
    have hhead : h.head? ≠ some 91 := by
      intro heq
      obtain ⟨q, rfl⟩ := head?_eq_some_iff.mp heq
      exact hbracket q rfl
    obtain ⟨-, happend, -⟩ := reads_host.span_spec h
    have hiff : (span (charZ isHostChar) h).2 = h ↔ (span (charZ isHostChar) h).1 = [] := by
      constructor
      · intro heq
        rw [heq] at happend
        exact append_left_eq_self.mp happend
      · intro hnil
        rwa [hnil] at happend
    rw [splitHost_name hhead, uriParseRegnameHost_eq]
    dsimp only [bind_some]
    simp only [hiff]

/-- **What `uriParseHostPort` reads**: a host that is not empty, and a port with digits if there is a
colon. -/
theorem uriParseHostPort_iff {h : List UInt8} {out : List UriComponent} :
    uriParseHostPort h = some out ↔
      ∃ x p port, splitHost h = some (x, p) ∧ x ≠ [] ∧ p ≠ [58] ∧ uriParsePort p = some (port, []) ∧
        out = hostOut x ++ port := by
  have hport {digits : List UInt8} (hdigit : digits.head?.any isDigit = true) {n : ℕ} {rest : List UInt8}
      (hloop : portLoop 0 digits = some (n, rest)) : uriParsePort (58 :: digits) = some ([.port n], rest) := by
    have hne : rest ≠ digits := by
      rw [portLoop_eq (Nat.zero_le _)] at hloop
      split at hloop
      · cases hloop
        intro heq
        cases digits with
        | nil => cases hdigit
        | cons c t =>
          have hnot := head_dropWhile (c :: t) c (by rw [heq]; rfl)
          rw [show isDigit c = true from hdigit] at hnot
          cases hnot
      · cases hloop
    rw [uriParsePort, hloop]
    dsimp only
    rw [if_pos hne]
  unfold uriParseHostPort
  rw [hostPortHost_eq]
  cases hsplit : splitHost h with
  | none =>
    constructor
    · intro hnone
      cases hnone
    · rintro ⟨x, p, port, hsome, -⟩
      cases hsome
  | some v =>
    obtain ⟨x, p⟩ := v
    rw [bind_some]
    constructor
    · intro hsome
      by_cases hx : x = []
      · rw [if_pos hx] at hsome
        cases hsome
      rw [if_neg hx] at hsome
      split at hsome
      · next heq => cases heq
      · next host digits heq =>
        cases heq
        split at hsome
        · next hdigit =>
          split at hsome
          · next n hloop =>
            cases hsome
            refine ⟨x, _, _, rfl, hx, ?_, hport hdigit hloop, rfl⟩
            rintro heq
            cases heq
            cases hdigit
          · cases hsome
        · cases hsome
      · next host p hcolon heq =>
        cases heq
        split at hsome
        · next hnil =>
          cases hsome
          subst hnil
          exact ⟨x, [], [], rfl, hx, (cons_ne_nil _ _).symm, rfl, (append_nil _).symm⟩
        · cases hsome
    · rintro ⟨x', p', port, heq, hx, hp, hparse, rfl⟩
      cases heq
      rw [if_neg hx]
      cases p with
      | nil =>
        cases hparse
        rw [append_nil]
        rfl
      | cons c digits =>
        by_cases hc : c = 58
        · subst hc
          cases hloop : portLoop 0 digits with
          | none =>
            rw [uriParsePort, hloop] at hparse
            cases hparse
          | some v =>
            obtain ⟨n, rest⟩ := v
            have hdigit : digits.head?.any isDigit = true := by
              cases digits with
              | nil => exact absurd rfl hp
              | cons d t =>
                by_contra hd
                have hstop : portLoop 0 (d :: t) = some (0, d :: t) := if_neg hd
                rw [uriParsePort, hstop] at hparse
                cases hparse
            rw [hport hdigit hloop] at hparse
            cases hparse
            show (if digits.head?.any isDigit = true then _ else none) = _
            rw [if_pos hdigit, hloop]
        · unfold uriParsePort at hparse
          split at hparse
          · next heq => exact absurd (List.cons.inj heq).1 hc
          · cases hparse

/-! ### The characters of a host and a port -/

theorem isHostChar_of_isHexDigit {c : UInt8} (hc : isHexDigit c = true) : isHostChar c = true := by
  revert hc
  refine forall_byte (P := fun c => isHexDigit c = true → isHostChar c = true) ?_ c
  decide +kernel

/-- The bytes of a name. -/
theorem mem_regName_byte {x : List UInt8} (hx : x ∈ regName) {c : UInt8} (hc : c ∈ x) :
    isHostChar c = true ∨ c = 37 := by
  rw [regName_eq] at hx
  revert hc
  refine kstar_induction (P := fun x => c ∈ x → isHostChar c = true ∨ c = 37) nofun ?_ hx
  rintro w (⟨d, hd, rfl⟩ | hw) z - ih hmem
  · obtain rfl | hmem := mem_cons.mp hmem
    · exact .inl hd
    · exact ih hmem
  · obtain ⟨a, b, ha, hb, rfl⟩ := mem_pctEncoded.mp hw
    obtain hmem | hmem := mem_append.mp hmem
    · simp only [mem_cons, not_mem_nil, or_false] at hmem
      obtain rfl | rfl | rfl := hmem
      · exact .inr rfl
      · exact .inl (isHostChar_of_isHexDigit ha)
      · exact .inl (isHostChar_of_isHexDigit hb)
    · exact ih hmem

/-- The bytes of a host. -/
theorem mem_host_byte {x : List UInt8} (hx : x ∈ host ipLiteral) {c : UInt8} (hc : c ∈ x) :
    isHostChar c = true ∨ c = 37 ∨ c = 58 ∨ c = 91 ∨ c = 93 := by
  obtain ⟨y, ⟨out, hy⟩, rfl⟩ | hname := mem_host_iff.mp hx
  · obtain ⟨a, ha, rfl, -⟩ := uriParseIpLiteral_iff_ipv6.mp hy
    obtain rfl | hc := mem_cons.mp hc
    · exact .inr (.inr (.inr (.inl rfl)))
    obtain hc | hc := mem_append.mp hc
    · obtain hc | rfl | rfl := mem_text ha hc
      · exact .inl (isHostChar_of_isHexDigit hc)
      · exact .inr (.inr (.inl rfl))
      · exact .inl (by decide)
    · exact .inr (.inr (.inr (.inr (mem_singleton.mp hc))))
  · exact (mem_regName_byte hname hc).imp_right .inl

variable {port : List UriComponent}

/-- What is read whole as a port. -/
theorem uriParsePort_eq_nil {p : List UInt8} (h : uriParsePort p = some (port, [])):
    (p = [] ∧ port = []) ∨ ∃ digits, p = 58 :: digits ∧ (∀ c ∈ digits, isDigit c = true) ∧
      port = portOut (some digits) := by
  rw [uriParsePort_eq] at h
  obtain ⟨⟨o, rest⟩, hsplit, heq⟩ := map_eq_some_iff.mp h
  cases heq
  obtain ⟨hvalid, rfl⟩ := splitPort_eq_some hsplit
  cases o with
  | none => exact .inl ⟨rfl, rfl⟩
  | some digits =>
    exact .inr ⟨digits, append_nil _, mem_digits_iff.mp (hvalid digits rfl).1, rfl⟩

/-- The bytes of a host and a port. -/
theorem not_mem_of_split {h x p : List UInt8} (hsplit : splitHost h = some (x, p))
    (hport : uriParsePort p = some (port, [])) : 64 ∉ h ∧ 47 ∉ h ∧ 63 ∉ h ∧ 35 ∉ h := by
  obtain ⟨hx, rfl⟩ := splitHost_eq_some hsplit
  have hbyte {c : UInt8} (hhost : isHostChar c = false) (hdigit : isDigit c = false)
      (hc : c ≠ 37 ∧ c ≠ 58 ∧ c ≠ 91 ∧ c ≠ 93) : c ∉ x ++ p := by
    intro hmem
    obtain hmem | hmem := mem_append.mp hmem
    · obtain htrue | heq | heq | heq | heq := mem_host_byte hx hmem
      · rw [hhost] at htrue
        cases htrue
      · exact hc.1 heq
      · exact hc.2.1 heq
      · exact hc.2.2.1 heq
      · exact hc.2.2.2 heq
    · obtain ⟨rfl, -⟩ | ⟨digits, rfl, hall, -⟩ := uriParsePort_eq_nil hport
      · cases hmem
      · obtain rfl | hmem := mem_cons.mp hmem
        · exact hc.2.1 rfl
        · rw [hall c hmem] at hdigit
          cases hdigit
  exact ⟨hbyte (by decide) (by decide) (by decide), hbyte (by decide) (by decide) (by decide),
    hbyte (by decide) (by decide) (by decide), hbyte (by decide) (by decide) (by decide)⟩

/-! ### Authorities -/

/-- **What `uriParse` makes of a host and a port.** -/
theorem uriParse_authority_iff {h : List UInt8} (huser : 64 ∉ h) (hslash : 47 ∉ h) (hquery : 63 ∉ h)
    (hfragment : 35 ∉ h) {out : List UriComponent} :
    uriParse (chars "x://" ++ h) = some out ↔
      ∃ x p port, splitHost h = some (x, p) ∧ uriParsePort p = some (port, []) ∧
        out = .schema (chars "x") :: (hostOut x ++ port) := by
  have hsplitUser : splitUser h = (none, h) := by
    refine splitUser_none fun hhead => huser ?_
    obtain ⟨t, ht⟩ := head?_eq_some_iff.mp hhead
    rw [← (reads_user.span_spec h).2.1, ht]
    simp
  have hauthority : uriParseAuthority h = (splitHost h).bind fun v =>
      (uriParsePort v.2).map fun w => (hostOut v.1 ++ w.1, w.2) := by
    rw [uriParseAuthority, uriParseUserInfo_eq, hsplitUser, uriParseHost_eq]
    cases splitHost h with
    | none => rfl
    | some v =>
      rw [map_some, bind_some]
      dsimp only
      cases uriParsePort v.2 with
      | none => rfl
      | some w => rfl
  -- what is after the authority is a part of `h`, and begins no path, query or fragment
  have hparse : uriParse (chars "x://" ++ h) = (uriParseAuthority h).bind fun v =>
      if v.2.head? = some 47 then
        ((parserOk (uriParsePath true v.2)).map fun w => (v.1 ++ w.1, w.2)).bind fun w =>
          (uriParseTail w.2).map fun out => [.schema (chars "x")] ++ w.1 ++ out
      else (uriParseTail v.2).map fun out => [.schema (chars "x")] ++ v.1 ++ out := by
    show (match uriParseHierPart (47 :: 47 :: h) with
      | none => none
      | some (hierPart, p) =>
        (uriParseTail p).map fun out => [UriComponent.schema (chars "x")] ++ hierPart ++ out) = _
    rw [uriParseHierPart]
    cases uriParseAuthority h with
    | none => rfl
    | some v =>
      dsimp only [bind_some]
      by_cases hslash : v.2.head? = some 47
      · rw [if_pos hslash, if_pos hslash]
        cases parserOk (uriParsePath true v.2) with
        | none => rfl
        | some w => rfl
      · rw [if_neg hslash, if_neg hslash]
  have htail {c : UInt8} {t : List UInt8} (hc : c ∈ h) : uriParseTail (c :: t) = none := by
    have hne {d : UInt8} (hd : d ∉ h) : ¬c = d := by
      rintro rfl
      exact hd hc
    rw [uriParseTail, uriParseMarked, if_neg (hne hquery)]
    dsimp only
    rw [uriParseMarked, if_neg (hne hfragment)]
  have hauthority_iff {v : List UriComponent × List UInt8} : uriParseAuthority h = some v ↔
      ∃ x p port, splitHost h = some (x, p) ∧ uriParsePort p = some (port, v.2) ∧ v.1 = hostOut x ++ port := by
    rw [hauthority]
    constructor
    · intro hsome
      obtain ⟨⟨x, p⟩, hsplit, hmap⟩ := bind_eq_some_iff.mp hsome
      obtain ⟨⟨port, rest⟩, hport, rfl⟩ := map_eq_some_iff.mp hmap
      exact ⟨x, p, port, hsplit, hport, rfl⟩
    · rintro ⟨x, p, port, hsplit, hport, hv⟩
      rw [hsplit, bind_some]
      dsimp only
      rw [hport, map_some, ← hv]
  constructor
  · intro hsome
    rw [hparse] at hsome
    obtain ⟨⟨o, rest⟩, ha, hrest⟩ := bind_eq_some_iff.mp hsome
    obtain ⟨x, p, port, hsplit, hport, (rfl : o = _)⟩ := hauthority_iff.mp ha
    dsimp only at hport hrest
    obtain ⟨-, rfl⟩ := splitHost_eq_some hsplit
    have hsuffix : rest <:+ p := by
      rw [uriParsePort_eq] at hport
      obtain ⟨⟨digits, rest'⟩, hdigits, heq⟩ := map_eq_some_iff.mp hport
      obtain ⟨-, rfl⟩ := Prod.mk.inj heq
      exact ⟨_, (splitPort_eq_some hdigits).2⟩
    cases rest with
    | nil =>
      rw [if_neg (by rintro ⟨⟩)] at hrest
      cases hrest
      exact ⟨x, p, port, hsplit, hport, by simp⟩
    | cons c t =>
      have hc : c ∈ x ++ p := mem_append_right _ (hsuffix.subset mem_cons_self)
      have hslash' : ¬(c :: t).head? = some 47 := by
        intro heq
        cases heq
        exact hslash hc
      rw [if_neg hslash', htail hc] at hrest
      cases hrest
  · rintro ⟨x, p, port, hsplit, hport, rfl⟩
    have ha : uriParseAuthority h = some (hostOut x ++ port, []) :=
      hauthority_iff.mpr ⟨x, p, port, hsplit, hport, rfl⟩
    rw [hparse, ha, bind_some, if_neg (by rintro ⟨⟩)]
    simp [uriParseTail, uriParseMarked]

/-- What is delivered for a host and a port. -/
theorem hostOut_ne_nil {x : List UInt8} (hx : x ∈ host ipLiteral) (hne : x ≠ []) :
    ∃ c, hostOut x = [c] ∧ c.isHost = true ∧ c.isOther = false := by
  have hdelivers := hostDelivers_hostOut hx
  generalize hostOut x = out at hdelivers
  cases hdelivers with
  | none => exact absurd rfl hne
  | literal h =>
    obtain ⟨groups, rfl, -, -⟩ := uriParseIpLiteral_groups h
    exact ⟨_, rfl, rfl, rfl⟩
  | ipv4 ha hb hc hd => exact ⟨_, rfl, rfl, rfl⟩
  | name hne hname hipv4 => exact ⟨_, rfl, rfl, rfl⟩

theorem portOut_kinds {p : List UInt8} (h : uriParsePort p = some (port, [])) :
    ∀ c ∈ port, c.isHost = false ∧ c.isOther = false := by
  obtain ⟨-, rfl⟩ | ⟨digits, -, -, rfl⟩ := uriParsePort_eq_nil h
  · nofun
  · rw [portOut]
    split
    · nofun
    · exact forall_mem_singleton.mpr ⟨rfl, rfl⟩

/-- A host does not end with a colon, and neither does a port with digits. -/
theorem getLast?_ne_colon {h x p : List UInt8} (hsplit : splitHost h = some (x, p))
    (hport : uriParsePort p = some (port, [])) : h.getLast? ≠ some 58 ↔ p ≠ [58] := by
  obtain ⟨hx, rfl⟩ := splitHost_eq_some hsplit
  constructor
  · rintro hlast rfl
    exact hlast (by simp)
  · intro hne hlast
    obtain ⟨rfl, -⟩ | ⟨digits, rfl, hall, -⟩ := uriParsePort_eq_nil hport
    · rw [append_nil] at hlast
      obtain ⟨y, -, rfl⟩ | hname := mem_host_iff.mp hx
      · rw [← cons_append, getLast?_concat] at hlast
        cases hlast
      · have hbyte := mem_regName_byte hname (mem_of_getLast? hlast)
        revert hbyte
        decide
    · obtain rfl | ⟨ds, d, rfl⟩ := eq_nil_or_concat digits
      · exact hne rfl
      · have hd := hall d (by simp)
        have htext : x ++ 58 :: ds.concat d = (x ++ 58 :: ds) ++ [d] := by simp
        rw [htext, getLast?_concat] at hlast
        cases hlast
        cases hd

/-- **`uriParseHostPort` agrees with the authorities of `uriParse`.** -/
theorem hostPort_agrees (h : List UInt8) :
    ((uriParseHostPort h).isSome ↔
      ∃ out, uriParse (chars "x://" ++ h) = some out ∧ (∃ c ∈ out, c.isHost = true) ∧
        (∀ c ∈ out, c.isOther = false) ∧ h.getLast? ≠ some 58 ∧ 64 ∉ h ∧ 47 ∉ h ∧ 63 ∉ h ∧ 35 ∉ h) ∧
    ∀ out, uriParseHostPort h = some out →
      uriParse (chars "x://" ++ h) = some (.schema (chars "x") :: out) := by
  constructor
  · constructor
    · intro hsome
      obtain ⟨out, hout⟩ := isSome_iff_exists.mp hsome
      obtain ⟨x, p, port, hsplit, hx, hp, hport, rfl⟩ := uriParseHostPort_iff.mp hout
      obtain ⟨huser, hslash, hquery, hfragment⟩ := not_mem_of_split hsplit hport
      obtain ⟨c, hc, hhost, hother⟩ := hostOut_ne_nil (splitHost_eq_some hsplit).1 hx
      refine ⟨_, (uriParse_authority_iff huser hslash hquery hfragment).mpr ⟨x, p, port, hsplit, hport, rfl⟩,
        ⟨c, by simp [hc], hhost⟩, ?_, (getLast?_ne_colon hsplit hport).mpr hp, huser, hslash, hquery, hfragment⟩
      rw [hc]
      refine forall_mem_cons.mpr ⟨rfl, forall_mem_cons.mpr ⟨hother, ?_⟩⟩
      exact fun d hd => (portOut_kinds hport d hd).2
    · rintro ⟨out, hout, ⟨c, hc, hhost⟩, -, hlast, huser, hslash, hquery, hfragment⟩
      obtain ⟨x, p, port, hsplit, hport, rfl⟩ :=
        (uriParse_authority_iff huser hslash hquery hfragment).mp hout
      refine isSome_iff_exists.mpr ⟨_, uriParseHostPort_iff.mpr ⟨x, p, port, hsplit, ?_,
        (getLast?_ne_colon hsplit hport).mp hlast, hport, rfl⟩⟩
      rintro rfl
      obtain rfl | hc := mem_cons.mp hc
      · cases hhost
      · rw [(portOut_kinds hport c hc).1] at hhost
        cases hhost
  · intro out hout
    obtain ⟨x, p, port, hsplit, -, -, hport, rfl⟩ := uriParseHostPort_iff.mp hout
    obtain ⟨huser, hslash, hquery, hfragment⟩ := not_mem_of_split hsplit hport
    exact (uriParse_authority_iff huser hslash hquery hfragment).mpr ⟨x, p, port, hsplit, hport, rfl⟩

end Uri

end Asyncio

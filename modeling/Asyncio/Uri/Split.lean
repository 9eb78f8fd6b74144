import Asyncio.Uri.Hosts

/-!
# Splitting a URI

`splitUri` takes a URI apart by the spans that its parts are, each as long as it can be. It finds the
parts of any text of the grammar (`splitUri_text`), so these are determined by the text, and what it finds
are valid parts of the text (`splitUri_eq_some`).
-/

namespace Asyncio

namespace Uri

open Computability Grammar Rfc3986 List

/-- The userinfo of an authority. -/
def splitUser (p : List UInt8) : Option (List UInt8) × List UInt8 :=
  match span (charZ isUserChar) p with
  | (user, 64 :: rest) => (some user, rest)
  | _ => (none, p)

/-- The host of an authority, a literal with its brackets. -/
def splitHost (p : List UInt8) : Option (List UInt8 × List UInt8) :=
  match p with
  | 91 :: q => (uriParseIpLiteral q).map fun v => (91 :: q.take (q.length - v.2.length), v.2)
  | p => some (span (charZ isHostChar) p)

/-- The port of an authority. -/
def splitPort (p : List UInt8) : Option (Option (List UInt8) × List UInt8) :=
  match p with
  | 58 :: p =>
    if value (p.takeWhile isDigit) ≤ 65535 then some (some (p.takeWhile isDigit), p.dropWhile isDigit)
    else none
  | p => some (none, p)

def splitAuthority (p : List UInt8) : Option (Authority × List UInt8) :=
  match splitHost (splitUser p).2 with
  | none => none
  | some (host, rest) => (splitPort rest).map fun v => (⟨(splitUser p).1, host, v.1⟩, v.2)

/-- The authority, the path, and what is after them. -/
def splitHier (p : List UInt8) : Option (Option Authority × List UInt8 × List UInt8) :=
  match p with
  | 47 :: 47 :: p =>
    (splitAuthority p).map fun v =>
      (some v.1, if v.2.head? = some 47 then span (charZ isPathChar) v.2 else ([], v.2))
  | p => some (none, span (charZ isPathChar) p)

/-- What begins with `mark`, if it does. -/
def splitMarked (mark : UInt8) (p : List UInt8) : Option (List UInt8) × List UInt8 :=
  match p with
  | c :: q =>
    if c = mark then (some (span (charZ isQueryChar) q).1, (span (charZ isQueryChar) q).2)
    else (none, p)
  | [] => (none, [])

/-- The query and the fragment, with nothing after them. -/
def splitTail (p : List UInt8) : Option (Option (List UInt8) × Option (List UInt8)) :=
  if (splitMarked 35 (splitMarked 63 p).2).2 = [] then
    some ((splitMarked 63 p).1, (splitMarked 35 (splitMarked 63 p).2).1)
  else none

/-- What is after the scheme. -/
def splitBody (scheme p : List UInt8) : Option Parts :=
  match splitHier p with
  | none => none
  | some (authority, path, rest) =>
    (splitTail rest).map fun v => ⟨scheme, authority, path, v.1, v.2⟩

def splitUri (s : List UInt8) : Option Parts :=
  if s.head?.any isLetter then
    match s.dropWhile isSchemeChar with
    | 58 :: p => splitBody (s.takeWhile isSchemeChar) p
    | _ => none
  else none

/-! ### Where a span ends -/

theorem charZ_of_head {ok : UInt8 → Bool} {rest : List UInt8}
    (h : ∀ c ∈ rest.head?, ok c = false ∧ c ≠ 37) : charZ ok rest = none := by
  cases rest with
  | nil => rfl
  | cons c rest => exact charZ_of_not (h c rfl).1 (h c rfl).2 rest

variable {q f : Option (List UInt8)}

/-- The bytes that a query or a fragment begins with. -/
theorem head_tail :
    ∀ c ∈ (marked 63 q ++ marked 35 f).head?, c = 63 ∨ c = 35 := by
  intro c hc
  cases q with
  | some q => exact .inl (Option.some.inj hc).symm
  | none =>
    cases f with
    | some f => exact .inr (Option.some.inj hc).symm
    | none => cases hc

/-- The bytes that may be after an authority. -/
theorem head_after {path : List UInt8} (hpath : path = [] ∨ ∃ t, path = 47 :: t)
    :
    ∀ c ∈ (path ++ (marked 63 q ++ marked 35 f)).head?, c = 47 ∨ c = 63 ∨ c = 35 := by
  obtain rfl | ⟨t, rfl⟩ := hpath
  · intro c hc
    exact .inr (head_tail c hc)
  · intro c hc
    exact .inl (Option.some.inj hc).symm

/-! ### Queries and fragments -/

theorem reads_query : Reads (charZ isQueryChar) (escapable isQueryChar) := reads_charZ (by decide)

theorem query_eq : query = (escapable isQueryChar)∗ := by rw [query, queryChar_eq]

theorem fragment_eq : fragment = (escapable isQueryChar)∗ := by rw [fragment, queryChar_eq]

theorem splitMarked_append {mark : UInt8} {o : Option (List UInt8)} {rest : List UInt8}
    (ho : ∀ x, o = some x → x ∈ (escapable isQueryChar)∗)
    (hrest : ∀ c ∈ rest.head?, isQueryChar c = false ∧ c ≠ 37 ∧ c ≠ mark) :
    splitMarked mark (marked mark o ++ rest) = (o, rest) := by
  cases o with
  | none =>
    cases rest with
    | nil => rfl
    | cons c rest => exact if_neg (hrest c rfl).2.2
  | some x =>
    have hspan := reads_query.span_append (ho x rfl)
      (charZ_of_head fun c hc => ⟨(hrest c hc).1, (hrest c hc).2.1⟩)
    show splitMarked mark (mark :: (x ++ rest)) = _
    rw [splitMarked, if_pos rfl, hspan]

theorem splitMarked_spec (mark : UInt8) (p : List UInt8) :
    (∀ x, (splitMarked mark p).1 = some x → x ∈ (escapable isQueryChar)∗) ∧
      marked mark (splitMarked mark p).1 ++ (splitMarked mark p).2 = p := by
  cases p with
  | nil => exact ⟨nofun, rfl⟩
  | cons c q =>
    rw [splitMarked]
    split
    · next hc =>
      obtain ⟨hstar, happend, -⟩ := reads_query.span_spec q
      refine ⟨fun x hx => Option.some.inj hx ▸ hstar, ?_⟩
      rw [hc]
      exact congrArg (mark :: ·) happend
    · exact ⟨nofun, rfl⟩

theorem splitTail_append (hq : ∀ x, q = some x → x ∈ query) (hf : ∀ x, f = some x → x ∈ fragment):
    splitTail (marked 63 q ++ marked 35 f) = some (q, f) := by
  rw [query_eq] at hq
  rw [fragment_eq] at hf
  have hhead : ∀ c ∈ (marked 35 f).head?, isQueryChar c = false ∧ c ≠ 37 ∧ c ≠ 63 := by
    intro c hc
    cases f with
    | none => cases hc
    | some f =>
      cases hc
      decide
  have hfragment := @splitMarked_append 35 f [] hf nofun
  rw [append_nil] at hfragment
  rw [splitTail, splitMarked_append hq hhead, hfragment]
  rfl

variable {p : List UInt8}

theorem splitTail_eq_some (h : splitTail p = some (q, f)) :
    (∀ x, q = some x → x ∈ query) ∧ (∀ x, f = some x → x ∈ fragment) ∧
      marked 63 q ++ marked 35 f = p := by
  unfold splitTail at h
  split at h
  · next hnil =>
    cases h
    obtain ⟨hq, hqtext⟩ := splitMarked_spec 63 p
    obtain ⟨hf, hftext⟩ := splitMarked_spec 35 (splitMarked 63 p).2
    rw [hnil, append_nil] at hftext
    rw [query_eq, fragment_eq, hftext]
    exact ⟨hq, hf, hqtext⟩
  · cases h

/-! ### Authorities -/

theorem reads_user : Reads (charZ isUserChar) (escapable isUserChar) := reads_charZ (by decide)

theorem reads_host : Reads (charZ isHostChar) (escapable isHostChar) := reads_charZ (by decide)

theorem splitUser_some {u : List UInt8} (hu : u ∈ userinfo) (rest : List UInt8) :
    splitUser (u ++ 64 :: rest) = (some u, rest) := by
  rw [userinfo_eq] at hu
  rw [splitUser, reads_user.span_append hu (charZ_of_not (by decide) (by decide) rest)]
  rfl

theorem splitUser_none (h : (span (charZ isUserChar) p).2.head? ≠ some 64) :
    splitUser p = (none, p) := by
  unfold splitUser
  split
  · next hspan =>
    rw [hspan] at h
    exact absurd rfl h
  · rfl

theorem splitUser_spec (p : List UInt8) :
    (∀ u, (splitUser p).1 = some u → u ∈ userinfo) ∧
      userText (splitUser p).1 ++ (splitUser p).2 = p := by
  unfold splitUser
  split
  · next user rest hspan =>
    obtain ⟨hstar, happend, -⟩ := reads_user.span_spec p
    rw [hspan] at hstar happend
    rw [userinfo_eq]
    refine ⟨fun u hu => Option.some.inj hu ▸ hstar, ?_⟩
    rw [← happend]
    exact append_assoc _ _ _
  · exact ⟨nofun, rfl⟩

variable {x : List UInt8}

theorem head_of_mem_regName (hx : x ∈ regName) : x.head? ≠ some 91 := by
  rw [regName_eq] at hx
  intro hhead
  cases x with
  | nil => cases hhead
  | cons c x =>
    cases hhead
    have hnone := charZ_of_not (show isHostChar 91 = false by decide) (by decide) x
    have hspan := reads_host.span_append hx (rfl : charZ isHostChar [] = none)
    rw [append_nil, Reads.span_of_none hnone] at hspan
    cases hspan

theorem ipv4Address_le_regName : ipv4Address ≤ regName := by
  rintro x ⟨a, b, c, d, ha, hb, hc, hd, rfl⟩
  rw [regName_eq]
  have hoctet {n : ℕ} (hn : n ≤ 255) : ∀ c ∈ decimalText n, isHostChar c = true := by
    intro c hc
    have hdigit := (decimalText_octet hn).1 c hc
    simp [isHostChar, isUnreserved, hdigit]
  refine mem_escapable_of_forall fun e he => ?_
  simp only [dotted, mem_append, mem_cons] at he
  obtain he | rfl | he | rfl | he | rfl | he := he
  · exact hoctet ha e he
  · decide
  · exact hoctet hb e he
  · decide
  · exact hoctet hc e he
  · decide
  · exact hoctet hd e he

/-- A host is a literal in brackets or a name; the addresses are among the names. -/
theorem mem_host_iff : x ∈ host ipLiteral ↔
    (∃ y ∈ ipLiteral, x = 91 :: (y ++ [93])) ∨ x ∈ regName := by
  constructor
  · rintro ((hx | hx) | hx)
    · obtain ⟨z, hz, bracket, hbracket, rfl⟩ := Language.mem_mul.mp hx
      obtain ⟨bracket', hbracket', y, hy, rfl⟩ := Language.mem_mul.mp hz
      obtain rfl : bracket = [93] := hbracket
      obtain rfl : bracket' = [91] := hbracket'
      exact .inl ⟨y, hy, rfl⟩
    · exact .inr (ipv4Address_le_regName hx)
    · exact .inr hx
  · rintro (⟨y, hy, rfl⟩ | hx)
    · have hopen : [91] ∈ lit "[" := rfl
      have hclose : [93] ∈ lit "]" := rfl
      exact .inl (.inl (Language.append_mem_mul (Language.append_mem_mul hopen hy) hclose))
    · exact .inr hx

theorem splitHost_literal {q rest : List UInt8} {out : List UriComponent}
    (h : uriParseIpLiteral q = some (out, rest)) :
    ∃ y, q = y ++ 93 :: rest ∧ uriParseIpLiteral (y ++ [93]) = some (out, []) ∧
      splitHost (91 :: q) = some (91 :: (y ++ [93]), rest) := by
  obtain ⟨y, hq, hy⟩ := uriParseIpLiteral_iff.mp h
  refine ⟨y, hq, hy, ?_⟩
  have htake : q.take (q.length - rest.length) = y ++ [93] := by
    rw [hq, show y ++ 93 :: rest = y ++ [93] ++ rest by simp, length_append, Nat.add_sub_cancel,
      take_left]
  rw [splitHost, h, Option.map_some, htake]

theorem splitHost_name (h : p.head? ≠ some 91) :
    splitHost p = some (span (charZ isHostChar) p) := by
  unfold splitHost
  split
  · exact absurd rfl h
  · rfl

theorem splitHost_append {x rest : List UInt8} (hx : x ∈ host ipLiteral)
    (hrest : ∀ c ∈ rest.head?, isHostChar c = false ∧ c ≠ 37 ∧ c ≠ 91) :
    splitHost (x ++ rest) = some (x, rest) := by
  obtain ⟨y, ⟨out, hy⟩, rfl⟩ | hx := mem_host_iff.mp hx
  · have hparse := uriParseIpLiteral_iff.mpr ⟨y, (rfl : y ++ 93 :: rest = _), hy⟩
    obtain ⟨y', heq, -, hsplit⟩ := splitHost_literal hparse
    obtain rfl : y = y' := append_cancel_right heq
    have htext : 91 :: (y ++ [93]) ++ rest = 91 :: (y ++ 93 :: rest) := by simp
    rw [htext, hsplit]
  · have hhead : (x ++ rest).head? ≠ some 91 := by
      cases x with
      | nil =>
        intro h
        exact (hrest 91 h).2.2 rfl
      | cons c x => exact fun h => head_of_mem_regName hx h
    rw [regName_eq] at hx
    rw [splitHost_name hhead,
      reads_host.span_append hx (charZ_of_head fun c hc => ⟨(hrest c hc).1, (hrest c hc).2.1⟩)]

theorem splitHost_eq_some {p x rest : List UInt8} (h : splitHost p = some (x, rest)) :
    x ∈ host ipLiteral ∧ x ++ rest = p := by
  by_cases hbracket : p.head? = some 91
  · obtain ⟨q, rfl⟩ : ∃ q, p = 91 :: q := head?_eq_some_iff.mp hbracket
    obtain ⟨⟨out, r⟩, hparse, heq⟩ := Option.map_eq_some_iff.mp h
    obtain ⟨y, rfl, hy, hsplit⟩ := splitHost_literal hparse
    rw [hsplit] at h
    cases h
    exact ⟨mem_host_iff.mpr (.inl ⟨y, ⟨out, hy⟩, rfl⟩), by simp⟩
  · rw [splitHost_name hbracket] at h
    obtain ⟨hstar, happend, -⟩ := reads_host.span_spec p
    rw [Option.some.inj h] at hstar happend
    rw [← regName_eq] at hstar
    exact ⟨mem_host_iff.mpr (.inr hstar), happend⟩

theorem mem_digits_iff : x ∈ digit∗ ↔ ∀ c ∈ x, isDigit c = true := by
  rw [digit_eq]
  exact mem_kstar_byteSet

theorem splitPort_append {o : Option (List UInt8)} {rest : List UInt8} (ho : ∀ x, o = some x → x ∈ port)
    (hrest : ∀ c ∈ rest.head?, isDigit c = false ∧ c ≠ 58) :
    splitPort (marked 58 o ++ rest) = some (o, rest) := by
  cases o with
  | none =>
    show splitPort rest = _
    unfold splitPort
    split
    · exact absurd rfl (hrest 58 rfl).2
    · rfl
  | some x =>
    obtain ⟨hdigits, hvalue⟩ := ho x rfl
    obtain ⟨htake, hdrop⟩ :=
      takeWhile_dropWhile_append (mem_digits_iff.mp hdigits) fun c hc => (hrest c hc).1
    show splitPort (58 :: (x ++ rest)) = _
    rw [splitPort, htake, hdrop, if_pos hvalue]

theorem splitPort_eq_some {o : Option (List UInt8)} {rest : List UInt8}
    (h : splitPort p = some (o, rest)) : (∀ x, o = some x → x ∈ port) ∧ marked 58 o ++ rest = p := by
  unfold splitPort at h
  split at h
  · next p =>
    split at h
    · next hvalue =>
      cases h
      refine ⟨fun x hx => Option.some.inj hx ▸ ⟨?_, hvalue⟩, ?_⟩
      · exact mem_digits_iff.mpr fun c hc => mem_takeWhile_imp hc
      · exact congrArg (58 :: ·) takeWhile_append_dropWhile
    · cases h
  · cases h
    exact ⟨nofun, rfl⟩

/-- Without a userinfo, the look-ahead for it does not end at an `@`. -/
theorem span_user_of_valid {o : Option (List UInt8)} {rest : List UInt8}
    (hx : x ∈ host ipLiteral) (ho : ∀ x, o = some x → x ∈ port)
    (hrest : ∀ c ∈ rest.head?, c = 47 ∨ c = 63 ∨ c = 35) :
    (span (charZ isUserChar) (x ++ (marked 58 o ++ rest))).2.head? ≠ some 64 := by
  obtain ⟨y, -, rfl⟩ | hx := mem_host_iff.mp hx
  · have hnone : charZ isUserChar (91 :: (y ++ [93]) ++ (marked 58 o ++ rest)) = none :=
      charZ_of_not (by decide) (by decide) _
    rw [Reads.span_of_none hnone]
    nofun
  · have hstar : x ++ marked 58 o ∈ (escapable isUserChar)∗ := by
      have hmono : escapable isHostChar ≤ escapable isUserChar := by
        rintro y (⟨c, hc, rfl⟩ | hy)
        · exact .inl ⟨c, by rw [isUserChar, hc, Bool.true_or], rfl⟩
        · exact .inr hy
      have hport : marked 58 o ∈ (escapable isUserChar)∗ := by
        cases o with
        | none => exact Language.nil_mem_kstar _
        | some digits =>
          refine append_mem_kstar (x := [58]) (.inl ⟨58, by decide, rfl⟩) ?_
          refine kstar_mono (?_ : digit ≤ _) (ho digits rfl).1
          rw [digit_eq]
          rintro _ ⟨c, hc, rfl⟩
          exact .inl ⟨c, by simp [isUserChar, isHostChar, isUnreserved, hc], rfl⟩
      rw [regName_eq] at hx
      rw [← kstar_mul_kstar]
      exact Language.append_mem_mul (kstar_mono hmono hx) hport
    have hstop : charZ isUserChar rest = none := by
      refine charZ_of_head fun c hc => ?_
      obtain rfl | rfl | rfl := hrest c hc
      · decide
      · decide
      · decide
    rw [← append_assoc, reads_user.span_append hstar hstop]
    intro h
    have := hrest 64 h
    revert this
    decide

theorem splitAuthority_append {a : Authority} (ha : a.Valid ipLiteral) {rest : List UInt8}
    (hrest : ∀ c ∈ rest.head?, c = 47 ∨ c = 63 ∨ c = 35) :
    splitAuthority (a.text ++ rest) = some (a, rest) := by
  obtain ⟨user, x, o⟩ := a
  have huser : splitUser ((Authority.mk user x o).text ++ rest) = (user, x ++ (marked 58 o ++ rest)) := by
    cases user with
    | none =>
      have htext : (Authority.mk none x o).text ++ rest = x ++ (marked 58 o ++ rest) := by
        simp [Authority.text, userText]
      rw [htext]
      exact splitUser_none (span_user_of_valid ha.host ha.port hrest)
    | some u =>
      have htext : (Authority.mk (some u) x o).text ++ rest = u ++ 64 :: (x ++ (marked 58 o ++ rest)) := by
        simp [Authority.text, userText]
      rw [htext]
      exact splitUser_some (ha.userinfo u rfl) _
  have hhost : splitHost (x ++ (marked 58 o ++ rest)) = some (x, marked 58 o ++ rest) := by
    refine splitHost_append ha.host fun c hc => ?_
    cases o with
    | some digits =>
      cases hc
      decide
    | none =>
      obtain rfl | rfl | rfl := hrest c hc
      · decide
      · decide
      · decide
  have hport : splitPort (marked 58 o ++ rest) = some (o, rest) := by
    refine splitPort_append ha.port fun c hc => ?_
    obtain rfl | rfl | rfl := hrest c hc
    · decide
    · decide
    · decide
  rw [splitAuthority, huser]
  dsimp only
  rw [hhost]
  dsimp only
  rw [hport]
  rfl

theorem splitAuthority_eq_some {a : Authority} {rest : List UInt8}
    (h : splitAuthority p = some (a, rest)) : a.Valid ipLiteral ∧ a.text ++ rest = p := by
  unfold splitAuthority at h
  split at h
  · cases h
  next x r hhost =>
  obtain ⟨⟨o, rest⟩, hport, heq⟩ := Option.map_eq_some_iff.mp h
  cases heq
  obtain ⟨huser, husertext⟩ := splitUser_spec p
  obtain ⟨hhost, hhosttext⟩ := splitHost_eq_some hhost
  obtain ⟨hport, hporttext⟩ := splitPort_eq_some hport
  refine ⟨⟨huser, hhost, hport⟩, ?_⟩
  calc (Authority.mk (splitUser p).1 x o).text ++ rest
      = userText (splitUser p).1 ++ (x ++ (marked 58 o ++ rest)) := by
        simp only [Authority.text, append_assoc]
    _ = p := by rw [hporttext, hhosttext, husertext]

/-! ### Whole URIs -/

theorem reads_path : Reads (charZ isPathChar) (escapable isPathChar) := reads_charZ (by decide)

theorem span_path {x rest : List UInt8} (hx : x ∈ pathChar∗)
    (hrest : ∀ c ∈ rest.head?, c = 63 ∨ c = 35) : span (charZ isPathChar) (x ++ rest) = (x, rest) := by
  rw [pathChar_eq] at hx
  refine reads_path.span_append hx (charZ_of_head fun c hc => ?_)
  obtain rfl | rfl := hrest c hc
  · decide
  · decide

theorem splitHier_append {parts : Parts} (h : parts.Valid ipLiteral) {rest : List UInt8}
    (hrest : rest = marked 63 parts.query ++ marked 35 parts.fragment) :
    splitHier (parts.hierText ++ rest) = some (parts.authority, parts.path, rest) := by
  have hpath := h.path
  have htail : ∀ c ∈ rest.head?, c = 63 ∨ c = 35 := by
    rw [hrest]
    exact head_tail
  unfold Parts.hierText
  cases ha : parts.authority with
  | none =>
    rw [ha] at hpath
    obtain ⟨hstar, hslashes⟩ := mem_path_iff.mp hpath
    dsimp only
    unfold splitHier
    split
    · next p heq =>
      exfalso
      match hpath' : parts.path, hslashes with
      | [], _ =>
        rw [hpath', nil_append] at heq
        have := htail 47 (by rw [heq]; rfl)
        revert this
        decide
      | [c], _ =>
        rw [hpath', singleton_append] at heq
        have := htail 47 (by rw [(List.cons.inj heq).2]; rfl)
        revert this
        decide
      | c :: d :: t, hslashes =>
        rw [hpath'] at heq
        cases heq
        exact hslashes t rfl
    · rw [span_path hstar htail]
  | some a =>
    rw [ha] at hpath
    obtain ⟨hstar, hhead⟩ := mem_pathAbempty_iff.mp hpath
    have hsplit : splitAuthority (a.text ++ (parts.path ++ rest)) = some (a, parts.path ++ rest) := by
      rw [hrest]
      exact splitAuthority_append (h.authority a ha) (head_after hhead)
    have htext : 47 :: 47 :: (a.text ++ parts.path) ++ rest =
        47 :: 47 :: (a.text ++ (parts.path ++ rest)) := by simp
    dsimp only
    rw [htext, splitHier, hsplit, Option.map_some]
    dsimp only
    split
    · rw [span_path hstar htail]
    · next hslash =>
      obtain hnil | ⟨t, hcons⟩ := hhead
      · rw [hnil, nil_append]
      · rw [hcons] at hslash
        exact absurd rfl hslash

theorem splitHier_eq_some {authority : Option Authority} {path rest : List UInt8}
    (h : splitHier p = some (authority, path, rest)) :
    (∀ a, authority = some a → a.Valid ipLiteral) ∧
      (if authority.isSome then path ∈ pathAbempty else path ∈ pathAbsolute + pathRootless + pathEmpty) ∧
      ∀ c q f, (Parts.mk c authority path q f).hierText ++ rest = p := by
  unfold splitHier at h
  split at h
  · next p =>
    obtain ⟨⟨a, r⟩, hsplit, heq⟩ := Option.map_eq_some_iff.mp h
    obtain ⟨ha, htext⟩ := splitAuthority_eq_some hsplit
    dsimp only at heq
    have hpath : path ++ rest = r ∧ path ∈ pathAbempty := by
      split at heq
      · next hslash =>
        obtain ⟨hstar, happend, -⟩ := reads_path.span_spec r
        rw [(Prod.mk.inj (Option.some.inj (congrArg some heq))).2] at hstar happend
        rw [← pathChar_eq] at hstar
        refine ⟨happend, mem_pathAbempty_iff.mpr ⟨hstar, ?_⟩⟩
        cases path with
        | nil => exact .inl rfl
        | cons c t =>
          rw [← happend] at hslash
          cases hslash
          exact .inr ⟨t, rfl⟩
      · cases heq
        exact ⟨rfl, Language.nil_mem_kstar _⟩
    obtain rfl : some a = authority := (Prod.mk.inj heq).1
    refine ⟨fun b hb => Option.some.inj hb ▸ ha, hpath.2, fun c q f => ?_⟩
    rw [← htext, ← hpath.1]
    simp [Parts.hierText]
  · next hslashes =>
    obtain ⟨hstar, happend, -⟩ := reads_path.span_spec p
    obtain ⟨rfl, hspan⟩ := Prod.mk.inj (Option.some.inj h)
    rw [hspan] at hstar happend
    rw [← pathChar_eq] at hstar
    refine ⟨by rintro _ ⟨⟩, mem_path_iff.mpr ⟨hstar, fun t ht => ?_⟩, fun c q f => happend⟩
    rw [ht] at happend
    exact hslashes _ happend.symm

theorem mem_scheme_iff :
    x ∈ scheme ↔ x.head?.any isLetter = true ∧ ∀ c ∈ x, isSchemeChar c = true := by
  have halpha : alpha = byteSet isLetter := rfl
  have hrest : alpha + digit + among "+-." = byteSet isSchemeChar := by
    rw [alpha, digit_eq, among, byteSet_add, byteSet_add]
    refine byteSet_congr fun c => ?_
    simp [chars, isSchemeChar, isLetter, or_assoc]
  rw [scheme, hrest, halpha]
  constructor
  · intro hx
    obtain ⟨_, ⟨c, hc, rfl⟩, y, hy, rfl⟩ := Language.mem_mul.mp hx
    exact ⟨hc, forall_mem_cons.mpr ⟨by simp [isSchemeChar, hc], mem_kstar_byteSet.mp hy⟩⟩
  · rintro ⟨hhead, hall⟩
    cases x with
    | nil => cases hhead
    | cons c x =>
      have hstar := mem_kstar_byteSet.mpr (forall_mem_cons.mp hall).2
      exact Language.append_mem_mul (a := [c]) ⟨c, hhead, rfl⟩ hstar

/-- **Completeness**: the parts of a text are found. -/
theorem splitUri_text {parts : Parts} (h : parts.Valid ipLiteral) : splitUri parts.text = some parts := by
  obtain ⟨hletter, hscheme⟩ := mem_scheme_iff.mp h.scheme
  have hcolon (p : List UInt8) : ∀ c ∈ (58 :: p).head?, isSchemeChar c = false := by
    rintro c hc
    cases hc
    decide
  obtain ⟨htake, hdrop⟩ := takeWhile_dropWhile_append hscheme (hcolon _)
  have hhead : parts.text.head?.any isLetter = true := by
    rw [Parts.text, head?_append]
    cases hs : parts.scheme with
    | nil =>
      rw [hs] at hletter
      cases hletter
    | cons c t =>
      rw [hs] at hletter
      exact hletter
  rw [splitUri, if_pos hhead, Parts.text, htake, hdrop]
  show splitBody _ _ = _
  rw [splitBody, append_assoc, splitHier_append h rfl]
  dsimp only
  rw [splitTail_append h.query h.fragment]
  rfl

/-- **Soundness**: what is found are parts of the text. -/
theorem splitUri_eq_some {s : List UInt8} {parts : Parts} (h : splitUri s = some parts) :
    parts.Valid ipLiteral ∧ parts.text = s := by
  unfold splitUri at h
  split at h
  · next hletter =>
    split at h
    · next p hdrop =>
      unfold splitBody at h
      split at h
      · cases h
      next authority path rest hhier =>
      obtain ⟨⟨q, f⟩, htail, rfl⟩ := Option.map_eq_some_iff.mp h
      obtain ⟨ha, hpath, htext⟩ := splitHier_eq_some hhier
      obtain ⟨hq, hf, htail⟩ := splitTail_eq_some htail
      refine ⟨⟨mem_scheme_iff.mpr ⟨?_, fun c hc => mem_takeWhile_imp hc⟩, ha, hpath, hq, hf⟩, ?_⟩
      · cases s with
        | nil => cases hletter
        | cons c s =>
          have hletter' : isLetter c = true := hletter
          rw [takeWhile_cons_of_pos (by simp [isSchemeChar, hletter'])]
          exact hletter
      · have happend : s.takeWhile isSchemeChar ++ 58 :: p = s := by
          rw [← hdrop]
          exact takeWhile_append_dropWhile
        rw [Parts.text, append_assoc, htail, htext, happend]
    · cases h
  · cases h

end Uri

end Asyncio

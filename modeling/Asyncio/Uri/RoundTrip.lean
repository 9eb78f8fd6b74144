import Asyncio.Uri.Ipv6
import Asyncio.Uri.Percent

/-!
# Building and parsing

What `uriParse` leaves in a `URI` is determined by the parts of the text (`uriParseData_eq`). Of a text
without escapes it is a `URI.Plain`, and `URI::build` writes the text of its own parts (`URI.parts`) from
it, with one exception: without a userinfo and a host it writes no `//`, so that the text of a port, or of
a path that begins with `//`, is read as something else.

## Main results

* `uriParseData_build` — what is built is read back
* `round_trip_iff` — when it is
-/

namespace Asyncio

namespace Uri

open Computability Grammar Rfc3986 List Option

/-! ### What is kept -/

/-- What `stdCb` keeps of the parts of a URI. -/
def uriOf (parts : Parts) : URI := (partsOut parts).foldl stdCb URI.clear

theorem foldl_filter (out : List UriComponent) (data : URI) :
    (out.filter notElement).foldl stdCb data = out.foldl stdCb data := by
  induction out generalizing data with
  | nil => rfl
  | cons c out ih =>
    cases c with
    | queryElement raw raw2 => exact ih data
    | _ => exact ih _

theorem uriParseData_eq (s : List UInt8) : uriParseData s = (splitUri s).map uriOf := by
  have hfilter : (List.foldl stdCb URI.clear ∘ List.filter notElement) = List.foldl stdCb URI.clear :=
    funext fun out => foldl_filter out _
  have heq := congrArg (Option.map (List.foldl stdCb URI.clear)) (uriParse_eq s)
  rw [Option.map_map, Option.map_map, hfilter] at heq
  exact heq

/-- What is kept of a host. -/
def hostOf (host : List UInt8) : Host := ((hostOut host).foldl stdCb URI.clear).host

/-- What is kept of a port. -/
def portOf : Option (List UInt8) → ℤ
  | none => -1
  | some digits => if digits = [] then -1 else value digits

theorem HostDelivers.foldl {x : List UInt8} {out : List UriComponent} (h : HostDelivers x out) {data : URI}
    (hdata : data.host = .none) :
    out.foldl stdCb data = { data with host := (out.foldl stdCb URI.clear).host } := by
  cases h with
  | none =>
    show data = { data with host := .none }
    rw [← hdata]
  | literal h =>
    obtain ⟨groups, rfl, -, -⟩ := uriParseIpLiteral_groups h
    rfl
  | ipv4 ha hb hc hd => rfl
  | name hne hname hipv4 => rfl

theorem foldl_pathOut (x : List UInt8) {data : URI} (hdata : data.path = []) :
    (pathOut x).foldl stdCb data = { data with path := uriPctDecode x } := by
  unfold pathOut
  split
  · next hnil =>
    rw [hnil]
    show data = { data with path := [] }
    rw [← hdata]
  · rw [foldl_append]
    have hmap (elements : List (List UInt8)) :
        (elements.map UriComponent.pathElement).foldl stdCb data = data := by
      induction elements with
      | nil => rfl
      | cons element elements ih => exact ih
    rw [hmap]
    rfl

theorem foldl_authorityOut {a : Authority} (ha : a.Valid ipLiteral) (scheme : List UInt8) :
    (authorityOut a).foldl stdCb ⟨scheme, [], .none, -1, [], [], []⟩ =
      ⟨scheme, uriPctDecode (a.userinfo.getD []), hostOf a.host, portOf a.port, [], [], []⟩ := by
  have huser : (userOut a.userinfo).foldl stdCb ⟨scheme, [], .none, -1, [], [], []⟩ =
      ⟨scheme, uriPctDecode (a.userinfo.getD []), .none, -1, [], [], []⟩ := by
    cases a.userinfo with
    | none => rfl
    | some u => rfl
  rw [authorityOut, foldl_append, foldl_append, huser, (hostDelivers_hostOut ha.host).foldl rfl]
  cases a.port with
  | none => rfl
  | some digits =>
    rw [portOut, portOf]
    split
    · rfl
    · rfl

/-- **What is kept of the parts.** -/
theorem uriOf_eq {parts : Parts} (h : parts.Valid ipLiteral) :
    uriOf parts =
      { schema := parts.scheme
        userInfo := uriPctDecode ((parts.authority.bind (·.userinfo)).getD [])
        host := (parts.authority.map fun a => hostOf a.host).getD .none
        port := portOf (parts.authority.bind (·.port))
        path := uriPctDecode parts.path
        query := uriPctDecode (parts.query.getD [])
        fragment := uriPctDecode (parts.fragment.getD []) } := by
  obtain ⟨scheme, authority, path, query, fragment⟩ := parts
  have hauthority : ((authority.map authorityOut).getD []).foldl stdCb
      ⟨scheme, [], .none, -1, [], [], []⟩ =
        ⟨scheme, uriPctDecode ((authority.bind (·.userinfo)).getD []),
          (authority.map fun a => hostOf a.host).getD .none, portOf (authority.bind (·.port)), [], [], []⟩ := by
    cases authority with
    | none => rfl
    | some a => exact foldl_authorityOut (h.authority a rfl) scheme
  have hquery (data : URI) (hdata : data.query = []) :
      ((query.map fun q => if q = [] then [] else [UriComponent.query q]).getD []).foldl stdCb data =
        { data with query := uriPctDecode (query.getD []) } := by
    cases query with
    | none =>
      show data = { data with query := [] }
      rw [← hdata]
    | some q =>
      by_cases hq : q = []
      · rw [hq]
        show data = { data with query := [] }
        rw [← hdata]
      · rw [map_some, getD_some, if_neg hq]
        rfl
  have hfragment (data : URI) (hdata : data.fragment = []) :
      ((fragment.map fragmentOut).getD []).foldl stdCb data =
        { data with fragment := uriPctDecode (fragment.getD []) } := by
    cases fragment with
    | none =>
      show data = { data with fragment := [] }
      rw [← hdata]
    | some f =>
      rw [map_some, getD_some, fragmentOut]
      by_cases hf : f = []
      · rw [if_pos hf, hf]
        show data = { data with fragment := [] }
        rw [← hdata]
      · rw [if_neg hf]
        rfl
  rw [uriOf, partsOut, foldl_cons, foldl_append, foldl_append, hierOut, foldl_append]
  show List.foldl stdCb (List.foldl stdCb (List.foldl stdCb (List.foldl stdCb
    ⟨scheme, [], .none, -1, [], [], []⟩ _) _) _) _ = _
  rw [hauthority, foldl_pathOut path rfl, hquery _ rfl, hfragment _ rfl]

/-! ### Texts without escapes -/

theorem forall_of_mem_escapable {ok : UInt8 → Bool} {x : List UInt8} (h : 37 ∉ x)
    (hx : x ∈ (escapable ok)∗) : ∀ c ∈ x, ok c = true := by
  revert h
  refine kstar_induction (P := fun x => 37 ∉ x → ∀ c ∈ x, ok c = true) (fun _ => nofun) ?_ hx
  rintro w (⟨d, hd, rfl⟩ | hw) y - ih h
  · exact forall_mem_cons.mpr ⟨hd, ih fun hy => h (mem_append_right _ hy)⟩
  · obtain ⟨a, b, -, -, rfl⟩ := mem_pctEncoded.mp hw
    exact absurd (by simp) h

theorem uriPctEncode_of_forall {extra : List UInt8} {ok : UInt8 → Bool}
    (hok : ∀ n : Fin 256, ok (.ofNat n) = true → (UInt8.ofNat n ≠ 0 &&
      (isUnreserved (.ofNat n) || isSubDelims (.ofNat n) || extra.contains (.ofNat n))) = true)
    {x : List UInt8} (hx : ∀ c ∈ x, ok c = true) : uriPctEncode extra x = x := by
  induction x with
  | nil => rfl
  | cons c x ih =>
    obtain ⟨hc, hx⟩ := forall_mem_cons.mp hx
    have hplain := forall_byte (P := fun c => ok c = true →
      (c ≠ 0 && (isUnreserved c || isSubDelims c || extra.contains c)) = true) hok c
    have hrest := ih hx
    rw [uriPctEncode] at hrest
    rw [uriPctEncode, flatMap_cons, if_pos (hplain hc), hrest]
    rfl

theorem not_mem_of_forall {ok : UInt8 → Bool} (hok : ok 37 = false) {x : List UInt8}
    (hx : ∀ c ∈ x, ok c = true) : 37 ∉ x := by
  intro hmem
  have htrue := hx 37 hmem
  rw [hok] at htrue
  cases htrue

/-- A host of a text without escapes. -/
inductive Host.Plain : Host → Prop
  | none : Plain .none
  | ipv4 {a b c d : ℕ} (ha : a ≤ 255) (hb : b ≤ 255) (hc : c ≤ 255) (hd : d ≤ 255) :
    Plain (.ipv4 (a + 2 ^ 8 * b + 2 ^ 16 * c + 2 ^ 24 * d))
  | ipv6 {groups : List ℕ} (hlength : groups.length = 8) (hgroups : ∀ g ∈ groups, g < 65536) :
    Plain (.ipv6 groups)
  | dns {domain : List UInt8} (hne : domain ≠ []) (hname : ∀ c ∈ domain, isHostChar c = true)
    (hipv4 : domain ∉ ipv4Address) : Plain (.dns domain)

/-- What `uriParse` leaves of a text without escapes. -/
structure URI.Plain (u : URI) : Prop where
  schema : u.schema ∈ scheme
  userInfo : ∀ c ∈ u.userInfo, isUserChar c = true
  host : u.host.Plain
  port : u.port = -1 ∨ (0 ≤ u.port ∧ u.port ≤ 65535)
  path : ∀ c ∈ u.path, isPathChar c = true
  path_head : u.userInfo ≠ [] ∨ u.host ≠ .none → u.path = [] ∨ ∃ t, u.path = 47 :: t
  query : ∀ c ∈ u.query, isQueryChar c = true
  fragment : ∀ c ∈ u.fragment, isQueryChar c = true

theorem HostDelivers.plain {x : List UInt8} {out : List UriComponent} (h : HostDelivers x out)
    (hx : 37 ∉ x) : (out.foldl stdCb URI.clear).host.Plain := by
  cases h with
  | none => exact .none
  | literal h =>
    obtain ⟨groups, rfl, hlength, hgroups⟩ := uriParseIpLiteral_groups h
    exact .ipv6 hlength hgroups
  | ipv4 ha hb hc hd => exact .ipv4 ha hb hc hd
  | name hne hname hipv4 =>
    rw [regName_eq] at hname
    show Host.Plain (.dns (uriPctDecode x))
    rw [uriPctDecode_of_not_mem hx]
    exact .dns hne (forall_of_mem_escapable hx hname) hipv4

/-- The parts of a text are parts of it. -/
theorem subset_text (parts : Parts) :
    parts.path ⊆ parts.text ∧ (∀ q, parts.query = some q → q ⊆ parts.text) ∧
      (∀ f, parts.fragment = some f → f ⊆ parts.text) ∧
      ∀ a, parts.authority = some a → a.host ⊆ parts.text ∧ ∀ u, a.userinfo = some u → u ⊆ parts.text := by
  obtain ⟨scheme, authority, path, query, fragment⟩ := parts
  have hhier {c : UInt8} (hc : c ∈ (Parts.mk scheme authority path query fragment).hierText) :
      c ∈ (Parts.mk scheme authority path query fragment).text := by
    simp [Parts.text, hc]
  refine ⟨fun c hc => hhier ?_, ?_, ?_, ?_⟩
  · cases authority with
    | none => exact hc
    | some a => simp [Parts.hierText, hc]
  · rintro q rfl c hc
    simp [Parts.text, marked, hc]
  · rintro f rfl c hc
    simp [Parts.text, marked, hc]
  · rintro a rfl
    refine ⟨fun c hc => hhier (by simp [Parts.hierText, Authority.text, hc]), fun u hu c hc => hhier ?_⟩
    obtain ⟨user, host, port⟩ := a
    obtain rfl : user = some u := hu
    simp [Parts.hierText, Authority.text, userText, hc]

/-- **What is kept of a text without escapes.** -/
theorem plain_uriOf {parts : Parts} (h : parts.Valid ipLiteral) (hescape : 37 ∉ parts.text) :
    (uriOf parts).Plain := by
  obtain ⟨hpath, hquery, hfragment, hauthority⟩ := subset_text parts
  have hpathEscape : 37 ∉ parts.path := fun hmem => hescape (hpath hmem)
  rw [uriOf_eq h]
  refine ⟨h.scheme, ?_, ?_, ?_, ?_, ?_, ?_, ?_⟩
  · cases ha : parts.authority with
    | none => exact nofun
    | some a =>
      dsimp only [bind_some]
      cases hu : a.userinfo with
      | none => exact nofun
      | some u =>
        have hmem := (h.authority a ha).userinfo u hu
        have huEscape : 37 ∉ u := fun hmem => hescape ((hauthority a ha).2 u hu hmem)
        rw [userinfo_eq] at hmem
        rw [getD_some, uriPctDecode_of_not_mem huEscape]
        exact forall_of_mem_escapable huEscape hmem
  · cases ha : parts.authority with
    | none => exact .none
    | some a =>
      have hhost := hostDelivers_hostOut (h.authority a ha).host
      exact hhost.plain fun hmem => hescape ((hauthority a ha).1 hmem)
  · cases ha : parts.authority with
    | none => exact .inl rfl
    | some a =>
      dsimp only [bind_some]
      cases hport : a.port with
      | none => exact .inl rfl
      | some digits =>
        have hle := ((h.authority a ha).port digits hport).2
        rw [portOf]
        split
        · exact .inl rfl
        · exact .inr ⟨Int.natCast_nonneg _, by exact_mod_cast hle⟩
  · have hstar : parts.path ∈ pathChar∗ := by
      have hmem := h.path
      split at hmem
      · exact (mem_pathAbempty_iff.mp hmem).1
      · exact (mem_path_iff.mp hmem).1
    rw [pathChar_eq] at hstar
    rw [uriPctDecode_of_not_mem hpathEscape]
    exact forall_of_mem_escapable hpathEscape hstar
  · intro hsome
    have hmem := h.path
    cases ha : parts.authority with
    | none =>
      rw [ha] at hsome
      obtain hsome | hsome := hsome
      · exact absurd rfl hsome
      · exact absurd rfl hsome
    | some a =>
      rw [ha] at hmem
      dsimp only
      rw [uriPctDecode_of_not_mem hpathEscape]
      exact (mem_pathAbempty_iff.mp hmem).2
  · cases hq : parts.query with
    | none => exact nofun
    | some q =>
      have hmem := h.query q hq
      have hqEscape : 37 ∉ q := fun hmem => hescape (hquery q hq hmem)
      rw [query_eq] at hmem
      rw [getD_some, uriPctDecode_of_not_mem hqEscape]
      exact forall_of_mem_escapable hqEscape hmem
  · cases hf : parts.fragment with
    | none => exact nofun
    | some f =>
      have hmem := h.fragment f hf
      have hfEscape : 37 ∉ f := fun hmem => hescape (hfragment f hf hmem)
      rw [fragment_eq] at hmem
      rw [getD_some, uriPctDecode_of_not_mem hfEscape]
      exact forall_of_mem_escapable hfEscape hmem

/-! ### What is built -/

/-- A text, unless it is empty. -/
def nonempty (x : List UInt8) : Option (List UInt8) := if x = [] then none else some x

theorem nonempty_getD (x : List UInt8) : (nonempty x).getD [] = x := by
  unfold nonempty
  split
  · next hx => exact hx.symm
  · rfl

theorem eq_of_nonempty {x y : List UInt8} (h : nonempty x = some y) : y = x := by
  unfold nonempty at h
  split at h
  · cases h
  · exact (Option.some.inj h).symm

/-- The authority that is written. -/
def URI.authority (u : URI) : Authority :=
  ⟨nonempty u.userInfo, hostText u.host, if u.port ≥ 0 then some (xitoa u.port.toNat) else none⟩

/-- The parts that are written. -/
def URI.parts (u : URI) : Parts where
  scheme := u.schema
  authority := if u.userInfo ≠ [] ∨ u.host ≠ .none then some u.authority else none
  path := u.path
  query := nonempty u.query
  fragment := nonempty u.fragment

theorem encode_path {x : List UInt8} (hx : ∀ c ∈ x, isPathChar c = true) :
    uriPctEncode [47, 58, 64] x = x :=
  uriPctEncode_of_forall (by decide +kernel) hx

theorem encode_query {x : List UInt8} (hx : ∀ c ∈ x, isQueryChar c = true) :
    uriPctEncode [47, 58, 64, 63] x = x :=
  uriPctEncode_of_forall (by decide +kernel) hx

theorem ne_nil_of_mem_scheme {x : List UInt8} (hx : x ∈ scheme) : x ≠ [] := by
  rintro rfl
  cases (mem_scheme_iff.mp hx).1

variable {u : URI}

/-- The text without an authority. -/
theorem build_eq (h : u.Plain) :
    u.build = u.schema ++ 58 ::
      ((if u.userInfo ≠ [] ∨ u.host ≠ .none then [47, 47] else []) ++
        (userText (nonempty u.userInfo) ++ hostText u.host ++
          (if u.port ≥ 0 then 58 :: xitoa u.port.toNat else [])) ++
        u.path ++ marked 63 (nonempty u.query) ++ marked 35 (nonempty u.fragment)) := by
  have huser : (if u.userInfo ≠ [] then uriPctEncode [58] u.userInfo ++ [64] else []) =
      userText (nonempty u.userInfo) := by
    rw [uriPctEncode_of_forall (by decide +kernel) h.userInfo, nonempty]
    by_cases hnil : u.userInfo = []
    · rw [if_pos hnil, if_neg (not_not.mpr hnil)]
      rfl
    · rw [if_neg hnil, if_pos hnil]
      rfl
  have hmarked (mark : UInt8) (x : List UInt8) :
      (if x ≠ [] then mark :: x else []) = marked mark (nonempty x) := by
    rw [nonempty]
    by_cases hnil : x = []
    · rw [if_pos hnil, if_neg (not_not.mpr hnil)]
      rfl
    · rw [if_neg hnil, if_pos hnil]
      rfl
  have hpath : (if u.path ≠ [] then u.path else []) = u.path := by
    by_cases hnil : u.path = []
    · rw [if_neg (not_not.mpr hnil), hnil]
    · rw [if_pos hnil]
  have hslashes : (if (decide (u.userInfo ≠ []) || decide (u.host ≠ .none)) = true then [47, 47] else []) =
      if u.userInfo ≠ [] ∨ u.host ≠ .none then [(47 : UInt8), 47] else [] := by
    simp only [Bool.or_eq_true, decide_eq_true_eq]
  rw [URI.build, if_pos (ne_nil_of_mem_scheme h.schema), huser, encode_path h.path, encode_query h.query,
    encode_query h.fragment, hmarked, hmarked, hpath, hslashes]
  simp only [append_assoc, cons_append, nil_append]

/-- **The text of the parts.** -/
theorem build_eq_text (h : u.Plain)
    (hauthority : u.userInfo ≠ [] ∨ u.host ≠ .none ∨ u.port < 0) : u.build = u.parts.text := by
  rw [build_eq h]
  by_cases hsome : u.userInfo ≠ [] ∨ u.host ≠ .none
  · have hport : (if u.port ≥ 0 then 58 :: xitoa u.port.toNat else []) = marked 58 u.authority.port := by
      unfold URI.authority
      dsimp only
      split
      · rfl
      · rfl
    have hparts : u.parts.authority = some u.authority := if_pos hsome
    rw [if_pos hsome, hport, Parts.text, Parts.hierText, hparts]
    simp [URI.parts, Authority.text, URI.authority]
  · obtain ⟨huser, hhost⟩ := not_or.mp hsome
    have hport : ¬u.port ≥ 0 := by
      obtain hne | hne | hlt := hauthority
      · exact absurd hne huser
      · exact absurd hne hhost
      · omega
    have hparts : u.parts.authority = none := if_neg hsome
    rw [if_neg hsome, if_neg hport, not_not.mp huser, not_not.mp hhost, Parts.text, Parts.hierText, hparts]
    simp [URI.parts, nonempty, userText, hostText]

/-! ### What is read back -/

/-- The text of a host is a host, and delivered as this one. -/
theorem hostText_spec {host : Host} (h : host.Plain) :
    hostText host ∈ Rfc3986.host ipLiteral ∧ hostOf (hostText host) = host := by
  cases h with
  | none => exact ⟨mem_host_iff.mpr (.inr (Language.nil_mem_kstar _)), rfl⟩
  | ipv4 ha hb hc hd =>
    rename_i a b c d
    rw [hostText_ipv4 ha hb hc hd]
    have hmem : dotted a b c d ∈ regName := ipv4Address_le_regName ⟨a, b, c, d, ha, hb, hc, hd, rfl⟩
    have hne : dotted a b c d ≠ [] := by
      rw [dotted]
      exact append_ne_nil_of_right_ne_nil _ (cons_ne_nil _ _)
    refine ⟨mem_host_iff.mpr (.inr hmem), ?_⟩
    rw [hostOf, hostOut, if_neg (head_of_mem_regName hmem), if_neg hne,
      spanIsIpv4_iff.mpr ⟨a, b, c, d, ha, hb, hc, hd, rfl, rfl⟩, ipv4_value ha hb hc]
    rfl
  | ipv6 hlength hgroups =>
    rename_i groups
    have hparse := uriParseIpLiteral_ipv6Text hlength hgroups
    refine ⟨mem_host_iff.mpr (.inl ⟨ipv6Text groups, ⟨_, hparse⟩, rfl⟩), ?_⟩
    rw [hostOf, hostText, hostOut, if_pos (head?_cons ..), drop_succ_cons, drop_zero, hparse]
    rfl
  | dns hne hname hipv4 =>
    rename_i domain
    rw [hostText, @uriPctEncode_of_forall [] isHostChar (by decide +kernel) _ hname]
    have hmem : domain ∈ regName := by
      rw [regName_eq]
      exact mem_escapable_of_forall hname
    have hspan : spanIsIpv4 domain = none := by
      cases hspan : spanIsIpv4 domain with
      | none => rfl
      | some v =>
        obtain ⟨a, b, c, d, ha, hb, hc, hd, heq, -⟩ := spanIsIpv4_iff.mp hspan
        exact absurd ⟨a, b, c, d, ha, hb, hc, hd, heq⟩ hipv4
    refine ⟨mem_host_iff.mpr (.inr hmem), ?_⟩
    rw [hostOf, hostOut, if_neg (head_of_mem_regName hmem), if_neg hne, hspan]
    show Host.dns (uriPctDecode domain) = _
    rw [uriPctDecode_of_not_mem (not_mem_of_forall (by decide) hname)]

theorem valid_authority (h : u.Plain) : u.authority.Valid ipLiteral where
  userinfo := by
    intro x hx
    rw [eq_of_nonempty hx, userinfo_eq]
    exact mem_escapable_of_forall h.userInfo
  host := (hostText_spec h.host).1
  port := by
    intro x hx
    unfold URI.authority at hx
    dsimp only at hx
    split at hx
    · next hport =>
      obtain ⟨hdigits, -, hvalue⟩ := xitoa_spec u.port.toNat
      obtain rfl := Option.some.inj hx
      refine ⟨mem_digits_iff.mpr hdigits, ?_⟩
      rw [hvalue]
      have hle := h.port
      omega
    · cases hx

theorem valid_parts (h : u.Plain)
    (hslashes : u.userInfo ≠ [] ∨ u.host ≠ .none ∨ ¬[47, 47] <+: u.path) : u.parts.Valid ipLiteral where
  scheme := h.schema
  authority := by
    intro a ha
    unfold URI.parts at ha
    dsimp only at ha
    split at ha
    · obtain rfl := Option.some.inj ha
      exact valid_authority h
    · cases ha
  path := by
    have hstar : u.path ∈ pathChar∗ := by
      rw [pathChar_eq]
      exact mem_escapable_of_forall h.path
    by_cases hsome : u.userInfo ≠ [] ∨ u.host ≠ .none
    · have hparts : u.parts.authority = some u.authority := if_pos hsome
      rw [hparts]
      exact mem_pathAbempty_iff.mpr ⟨hstar, h.path_head hsome⟩
    · obtain ⟨huser, hhost⟩ := not_or.mp hsome
      have hparts : u.parts.authority = none := if_neg hsome
      rw [hparts]
      refine mem_path_iff.mpr ⟨hstar, fun t ht => ?_⟩
      obtain hne | hne | hne := hslashes
      · exact huser hne
      · exact hhost hne
      · exact hne ⟨t, ht.symm⟩
  query := by
    intro x hx
    rw [eq_of_nonempty hx, query_eq]
    exact mem_escapable_of_forall h.query
  fragment := by
    intro x hx
    rw [eq_of_nonempty hx, fragment_eq]
    exact mem_escapable_of_forall h.fragment

/-- **The parts are kept as this URI.** -/
theorem uriOf_parts (h : u.Plain) (hvalid : u.parts.Valid ipLiteral)
    (hauthority : u.userInfo ≠ [] ∨ u.host ≠ .none ∨ u.port < 0) : uriOf u.parts = u := by
  have hpath := uriPctDecode_of_not_mem (not_mem_of_forall (by decide) h.path)
  have hquery := uriPctDecode_of_not_mem (not_mem_of_forall (by decide) h.query)
  have hfragment := uriPctDecode_of_not_mem (not_mem_of_forall (by decide) h.fragment)
  have huser := uriPctDecode_of_not_mem (not_mem_of_forall (by decide) h.userInfo)
  have hport : portOf u.authority.port = u.port := by
    unfold URI.authority
    dsimp only
    split
    · obtain ⟨-, hne, hvalue⟩ := xitoa_spec u.port.toNat
      rw [portOf, if_neg hne, hvalue]
      omega
    · have hport := h.port
      show -1 = u.port
      omega
  rw [uriOf_eq hvalid]
  obtain ⟨schema, userInfo, host, port, path, query, fragment⟩ := u
  by_cases hsome : userInfo ≠ [] ∨ host ≠ .none
  · have hparts : (URI.mk schema userInfo host port path query fragment).parts.authority =
        some (URI.mk schema userInfo host port path query fragment).authority := if_pos hsome
    rw [hparts]
    simp only [bind_some, map_some, getD_some, hport]
    simp only [URI.parts, URI.authority, nonempty_getD, (hostText_spec h.host).2]
    rw [hpath, hquery, hfragment, huser]
  · obtain ⟨hnil, hnone⟩ := not_or.mp hsome
    obtain rfl : userInfo = [] := not_not.mp hnil
    obtain rfl : host = .none := not_not.mp hnone
    have hnegative : port = -1 := by
      obtain hne | hne | hlt := hauthority
      · exact absurd rfl hne
      · exact absurd rfl hne
      · have hport := h.port
        dsimp only at hport hlt
        omega
    have hparts : (URI.mk schema [] .none port path query fragment).parts.authority = none := rfl
    rw [hparts]
    simp only [bind_none, map_none, getD_none, URI.parts, nonempty_getD]
    rw [hpath, hquery, hfragment, hnegative]
    rfl

/-- **What is built is read back.** -/
theorem uriParseData_build (h : u.Plain)
    (hcondition : u.userInfo ≠ [] ∨ u.host ≠ .none ∨ (u.port < 0 ∧ ¬[47, 47] <+: u.path)) :
    uriParseData u.build = some u := by
  have hauthority : u.userInfo ≠ [] ∨ u.host ≠ .none ∨ u.port < 0 :=
    hcondition.imp_right (Or.imp_right And.left)
  have hslashes : u.userInfo ≠ [] ∨ u.host ≠ .none ∨ ¬[47, 47] <+: u.path :=
    hcondition.imp_right (Or.imp_right And.right)
  have hvalid := valid_parts h hslashes
  rw [build_eq_text h hauthority, uriParseData_eq, splitUri_text hvalid, map_some,
    uriOf_parts h hvalid hauthority]

/-! ### What is not read back -/

theorem not_mem_build (h : u.Plain) (huser : u.userInfo = []) (hhost : u.host = .none) :
    37 ∉ u.build := by
  have hscheme := (mem_scheme_iff.mp h.schema).2
  have hport : 37 ∉ (if u.port ≥ 0 then 58 :: xitoa u.port.toNat else []) := by
    split
    · rw [mem_cons, not_or]
      exact ⟨by decide, not_mem_of_forall (by decide) (xitoa_spec _).1⟩
    · exact not_mem_nil
  have hmarked {mark : UInt8} (hmark : 37 ≠ mark) {x : List UInt8} (hx : ∀ c ∈ x, isQueryChar c = true) :
      37 ∉ marked mark (nonempty x) := by
    unfold nonempty
    split
    · exact not_mem_nil
    · show 37 ∉ mark :: x
      rw [mem_cons, not_or]
      exact ⟨hmark, not_mem_of_forall (by decide) hx⟩
  rw [build_eq h, huser, hhost]
  simp only [mem_append, mem_cons, not_or]
  exact ⟨not_mem_of_forall (by decide) hscheme, by decide, ⟨⟨⟨by decide, ⟨by decide, by decide⟩, hport⟩,
    not_mem_of_forall (by decide) h.path⟩, hmarked (by decide) h.query⟩, hmarked (by decide) h.fragment⟩

/-- What is read from what is built has the same schema, and the rest of the text after it. -/
theorem rest_of_round_trip (h : u.Plain) (huser : u.userInfo = []) (hhost : u.host = .none)
    (hparse : uriParseData u.build = some u) :
    ∃ parts : Parts, parts.Valid ipLiteral ∧ uriOf parts = u ∧ 37 ∉ parts.text ∧
      parts.hierText ++ marked 63 parts.query ++ marked 35 parts.fragment =
        (if u.port ≥ 0 then 58 :: xitoa u.port.toNat else []) ++ u.path ++
          marked 63 (nonempty u.query) ++ marked 35 (nonempty u.fragment) := by
  have hescape := not_mem_build h huser hhost
  rw [uriParseData_eq] at hparse
  obtain ⟨parts, hsplit, hparts⟩ := map_eq_some_iff.mp hparse
  obtain ⟨hvalid, htext⟩ := splitUri_eq_some hsplit
  rw [← htext] at hescape
  refine ⟨parts, hvalid, hparts, hescape, ?_⟩
  have hscheme : parts.scheme = u.schema := by rw [← hparts, uriOf_eq hvalid]
  have hslashes : ¬(u.userInfo ≠ [] ∨ u.host ≠ .none) := by
    rw [not_or]
    exact ⟨not_not.mpr huser, not_not.mpr hhost⟩
  rw [build_eq h, Parts.text, hscheme, if_neg hslashes, huser, hhost] at htext
  have hrest := (List.cons.inj (append_cancel_left htext)).2
  rw [hrest]
  rfl

theorem length_le_marked (mark : UInt8) (o : Option (List UInt8)) :
    (marked mark (nonempty (o.getD []))).length ≤ (marked mark o).length := by
  cases o with
  | none => exact le_rfl
  | some x =>
    rw [getD_some, nonempty]
    split
    · exact Nat.zero_le _
    · exact le_rfl

/-- **Neither a port nor `//` in front of a path survives without a userinfo and a host.** -/
theorem uriParseData_build_ne (h : u.Plain) (huser : u.userInfo = []) (hhost : u.host = .none)
    (hlost : u.port ≥ 0 ∨ [47, 47] <+: u.path) : uriParseData u.build ≠ some u := by
  intro hparse
  obtain ⟨parts, hvalid, hparts, hescape, htext⟩ := rest_of_round_trip h huser hhost hparse
  by_cases hport : u.port ≥ 0
  · -- only an authority has a port, and it would be after two slashes
    rw [if_pos hport] at htext
    cases ha : parts.authority with
    | none =>
      have hnone : (uriOf parts).port = -1 := by
        rw [uriOf_eq hvalid, ha]
        rfl
      rw [hparts] at hnone
      omega
    | some a =>
      rw [Parts.hierText, ha] at htext
      cases htext
  · obtain ⟨t, ht⟩ := hlost.resolve_left hport
    rw [if_neg hport, nil_append] at htext
    obtain ⟨hsubset, hquerySubset, hfragmentSubset, -⟩ := subset_text parts
    have hpath : parts.path = u.path := by
      rw [← uriPctDecode_of_not_mem fun hmem => hescape (hsubset hmem), ← hparts, uriOf_eq hvalid]
    have hquery : parts.query.getD [] = u.query := by
      have hquery : 37 ∉ parts.query.getD [] := by
        cases hq : parts.query with
        | none => exact not_mem_nil
        | some q => exact fun hmem => hescape (hquerySubset q hq hmem)
      rw [← uriPctDecode_of_not_mem hquery, ← hparts, uriOf_eq hvalid]
    have hfragment : parts.fragment.getD [] = u.fragment := by
      have hfragment : 37 ∉ parts.fragment.getD [] := by
        cases hf : parts.fragment with
        | none => exact not_mem_nil
        | some f => exact fun hmem => hescape (hfragmentSubset f hf hmem)
      rw [← uriPctDecode_of_not_mem hfragment, ← hparts, uriOf_eq hvalid]
    have hvalidPath := hvalid.path
    cases ha : parts.authority with
    | none =>
      rw [ha] at hvalidPath
      exact (mem_path_iff.mp hvalidPath).2 t (by rw [hpath, ← ht]; rfl)
    | some a =>
      -- the slashes are read as those of an authority, and the path is too short
      have hlength := congrArg List.length htext
      have hle := length_le_marked 63 parts.query
      have hle' := length_le_marked 35 parts.fragment
      rw [hquery] at hle
      rw [hfragment] at hle'
      rw [Parts.hierText, ha] at hlength
      simp only [length_append, length_cons, hpath] at hlength
      omega

/-- **When a URI is read back as it was**, of a text without escapes. -/
theorem round_trip_iff {s : List UInt8} {u : URI} (hescape : 37 ∉ s) (hparse : uriParseData s = some u) :
    uriParseData u.build = some u ↔
      u.userInfo ≠ [] ∨ u.host ≠ .none ∨ (u.port < 0 ∧ ¬[47, 47] <+: u.path) := by
  rw [uriParseData_eq] at hparse
  obtain ⟨parts, hsplit, rfl⟩ := map_eq_some_iff.mp hparse
  obtain ⟨hvalid, rfl⟩ := splitUri_eq_some hsplit
  have hplain := plain_uriOf hvalid hescape
  constructor
  · intro hbuild
    by_contra hcondition
    obtain ⟨huser, hrest⟩ := not_or.mp hcondition
    obtain ⟨hhost, hrest⟩ := not_or.mp hrest
    refine uriParseData_build_ne hplain (not_not.mp huser) (not_not.mp hhost) ?_ hbuild
    by_contra hlost
    obtain ⟨hport, hslashes⟩ := not_or.mp hlost
    exact hrest ⟨Int.not_le.mp hport, hslashes⟩
  · exact uriParseData_build hplain

/-- `http://a:1/b` is read back. -/
theorem round_trip_iff_host : uriParseData (URI.build ⟨chars "http", [], .dns (chars "a"), 1, chars "/b", [], []⟩) =
    some ⟨chars "http", [], .dns (chars "a"), 1, chars "/b", [], []⟩ :=
  (round_trip_iff (s := chars "http://a:1/b") (by decide) (by decide +kernel)).mpr (.inr (.inl nofun))

/-- `http://:80/` is built as `http::80/`, and the port is lost. -/
theorem port_without_host : ∃ s u, 37 ∉ s ∧ uriParseData s = some u ∧ u.build = chars "http::80/" ∧
    uriParseData u.build ≠ some u :=
  ⟨chars "http://:80/", ⟨chars "http", [], .none, 80, chars "/", [], []⟩, by decide, by decide +kernel,
    by decide +kernel, by decide +kernel⟩

end Uri

end Asyncio

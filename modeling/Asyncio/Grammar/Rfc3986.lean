import Asyncio.Grammar.Span

/-!
# The grammar of URIs

The productions of RFC 3986, appendix A, as languages over bytes. What is inside the brackets of a host is
a parameter.

A `Parts` is a URI taken apart along the productions.

## Main results

* `mem_uri_iff` — the URIs are the texts of valid parts
* `mem_path_iff` — the paths of the grammar by how they begin
-/

namespace Rfc3986

open Computability Grammar Language

/-- The bytes of a text. -/
def chars (text : String) : List UInt8 := text.toList.map fun c => .ofNat c.toNat

/-- One byte with `p`. -/
def byteSet (p : UInt8 → Bool) : Language UInt8 := {x | ∃ c, p c = true ∧ x = [c]}

/-- One byte of a text. -/
def among (text : String) : Language UInt8 := byteSet fun c => c ∈ chars text

/-- A fixed text. -/
def lit (text : String) : Language UInt8 := {chars text}

def alpha : Language UInt8 := byteSet fun c => (65 ≤ c && c ≤ 90) || (97 ≤ c && c ≤ 122)

def digit : Language UInt8 := among "0123456789"

def hexdig : Language UInt8 := digit + among "ABCDEF" + among "abcdef"

def unreserved : Language UInt8 := alpha + digit + among "-._~"

def subDelims : Language UInt8 := among "!$&'()*+,;="

def pctEncoded : Language UInt8 := lit "%" * hexdig * hexdig

def pchar : Language UInt8 := unreserved + pctEncoded + subDelims + among ":@"

def segment : Language UInt8 := pchar∗

def segmentNz : Language UInt8 := pchar * pchar∗

def pathAbempty : Language UInt8 := (lit "/" * segment)∗

def pathAbsolute : Language UInt8 := lit "/" * (1 + segmentNz * (lit "/" * segment)∗)

def pathRootless : Language UInt8 := segmentNz * (lit "/" * segment)∗

def pathEmpty : Language UInt8 := 1

def query : Language UInt8 := (pchar + among "/?")∗

def fragment : Language UInt8 := (pchar + among "/?")∗

def userinfo : Language UInt8 := (unreserved + pctEncoded + subDelims + among ":")∗

def regName : Language UInt8 := (unreserved + pctEncoded + subDelims)∗

def scheme : Language UInt8 := alpha * (alpha + digit + among "+-.")∗

/-- The value of a decimal number. -/
def value (digits : List UInt8) : ℕ := digits.foldl (fun n c => n * 10 + (c.toNat - 48)) 0

/-- `port`, with a value of 16 bits. -/
def port : Language UInt8 := {x | x ∈ digit∗ ∧ value x ≤ 65535}

/-- A number in decimal, without leading zeros. -/
def decimalText (n : ℕ) : List UInt8 := (Nat.toDigits 10 n).map fun c => .ofNat c.toNat

/-- Four numbers, with dots between them. -/
def dotted (a b c d : ℕ) : List UInt8 :=
  decimalText a ++ 46 :: (decimalText b ++ 46 :: (decimalText c ++ 46 :: decimalText d))

def ipv4Address : Language UInt8 :=
  {x | ∃ a b c d, a ≤ 255 ∧ b ≤ 255 ∧ c ≤ 255 ∧ d ≤ 255 ∧ x = dotted a b c d}

section Uri

variable (ipLiteral : Language UInt8)

def host : Language UInt8 := lit "[" * ipLiteral * lit "]" + ipv4Address + regName

def authority : Language UInt8 := (1 + userinfo * lit "@") * host ipLiteral * (1 + lit ":" * port)

def hierPart : Language UInt8 :=
  lit "//" * authority ipLiteral * pathAbempty + pathAbsolute + pathRootless + pathEmpty

def uri : Language UInt8 :=
  scheme * lit ":" * hierPart ipLiteral * (1 + lit "?" * query) * (1 + lit "#" * fragment)

end Uri

/-! ### Parts -/

structure Authority where
  userinfo : Option (List UInt8)
  host : List UInt8
  port : Option (List UInt8)

/-- A URI taken apart. -/
structure Parts where
  scheme : List UInt8
  authority : Option Authority
  path : List UInt8
  query : Option (List UInt8)
  fragment : Option (List UInt8)

/-- What begins with `mark`, if it is there. -/
def marked (mark : UInt8) : Option (List UInt8) → List UInt8
  | none => []
  | some x => mark :: x

/-- A userinfo with what is after it, if it is there. -/
def userText : Option (List UInt8) → List UInt8
  | none => []
  | some u => u ++ [64]

def Authority.text (a : Authority) : List UInt8 := userText a.userinfo ++ a.host ++ marked 58 a.port

/-- The path with what is before it. -/
def Parts.hierText (parts : Parts) : List UInt8 :=
  match parts.authority with
  | none => parts.path
  | some a => 47 :: 47 :: (a.text ++ parts.path)

def Parts.text (parts : Parts) : List UInt8 :=
  parts.scheme ++ 58 :: (parts.hierText ++ marked 63 parts.query ++ marked 35 parts.fragment)

structure Authority.Valid (ipLiteral : Language UInt8) (a : Authority) : Prop where
  userinfo : ∀ u, a.userinfo = some u → u ∈ Rfc3986.userinfo
  host : a.host ∈ Rfc3986.host ipLiteral
  port : ∀ p, a.port = some p → p ∈ Rfc3986.port

structure Parts.Valid (ipLiteral : Language UInt8) (parts : Parts) : Prop where
  scheme : parts.scheme ∈ Rfc3986.scheme
  authority : ∀ a, parts.authority = some a → a.Valid ipLiteral
  path : if parts.authority.isSome then parts.path ∈ pathAbempty
    else parts.path ∈ pathAbsolute + pathRootless + pathEmpty
  query : ∀ q, parts.query = some q → q ∈ Rfc3986.query
  fragment : ∀ f, parts.fragment = some f → f ∈ Rfc3986.fragment

variable {x : List UInt8}

theorem mem_lit {text : String} : x ∈ lit text ↔ x = chars text := Iff.rfl

/-- A text, or nothing. -/
theorem mem_marked {mark : String} {c : UInt8} (hmark : chars mark = [c]) {l : Language UInt8}
    : x ∈ 1 + lit mark * l ↔ ∃ o, (∀ y, o = some y → y ∈ l) ∧ marked c o = x := by
  constructor
  · rintro (hnil | hmem)
    · exact ⟨none, nofun, ((mem_one x).mp hnil).symm⟩
    · obtain ⟨a, ha, b, hb, rfl⟩ := mem_mul.mp hmem
      rw [mem_lit, hmark] at ha
      subst ha
      exact ⟨some b, fun y hy => Option.some.inj hy ▸ hb, rfl⟩
  · rintro ⟨o, ho, rfl⟩
    cases o with
    | none => exact .inl rfl
    | some y => exact .inr (mem_mul.mpr ⟨[c], by rw [mem_lit, hmark], y, ho y rfl, rfl⟩)

theorem mem_user {l : Language UInt8} :
    x ∈ 1 + l * lit "@" ↔ ∃ o, (∀ y, o = some y → y ∈ l) ∧ userText o = x := by
  constructor
  · rintro (hnil | hmem)
    · exact ⟨none, nofun, ((mem_one x).mp hnil).symm⟩
    · obtain ⟨a, ha, b, rfl, rfl⟩ := mem_mul.mp hmem
      exact ⟨some a, fun y hy => Option.some.inj hy ▸ ha, rfl⟩
  · rintro ⟨o, ho, rfl⟩
    cases o with
    | none => exact .inl rfl
    | some y => exact .inr (mem_mul.mpr ⟨y, ho y rfl, [64], rfl, rfl⟩)

variable {ipLiteral : Language UInt8}

theorem mem_authority_iff :
    x ∈ authority ipLiteral ↔ ∃ a : Authority, a.Valid ipLiteral ∧ a.text = x := by
  constructor
  · intro hx
    obtain ⟨y, hy, p, hp, rfl⟩ := mem_mul.mp hx
    obtain ⟨u, hu, h, hh, rfl⟩ := mem_mul.mp hy
    obtain ⟨user, huser, rfl⟩ := mem_user.mp hu
    obtain ⟨port, hport, rfl⟩ := (mem_marked (c := 58) rfl).mp hp
    exact ⟨⟨user, h, port⟩, ⟨huser, hh, hport⟩, rfl⟩
  · rintro ⟨a, ha, rfl⟩
    refine append_mem_mul (append_mem_mul ?_ ha.host) ?_
    · exact mem_user.mpr ⟨a.userinfo, ha.userinfo, rfl⟩
    · exact (mem_marked (c := 58) rfl).mpr ⟨a.port, ha.port, rfl⟩

theorem Parts.Valid.hierText_mem {parts : Parts} (h : parts.Valid ipLiteral) :
    parts.hierText ∈ hierPart ipLiteral := by
  obtain ⟨scheme, authority, path, query, fragment⟩ := parts
  cases authority with
  | none =>
    obtain (hpath | hpath) | hpath := h.path
    · exact .inl (.inl (.inr hpath))
    · exact .inl (.inr hpath)
    · exact .inr hpath
  | some a =>
    have hpath : path ∈ pathAbempty := h.path
    have ha := mem_authority_iff.mpr ⟨a, h.authority a rfl, rfl⟩
    have hslashes : [47, 47] ∈ lit "//" := rfl
    exact .inl (.inl (.inl (append_mem_mul (append_mem_mul hslashes ha) hpath)))

/-- **The URIs are the texts of valid parts.** -/
theorem mem_uri_iff {s : List UInt8} :
    s ∈ uri ipLiteral ↔ ∃ parts : Parts, parts.Valid ipLiteral ∧ parts.text = s := by
  constructor
  · intro hs
    obtain ⟨x, hx, f, hf, rfl⟩ := mem_mul.mp hs
    obtain ⟨y, hy, q, hq, rfl⟩ := mem_mul.mp hx
    obtain ⟨z, hz, h, hh, rfl⟩ := mem_mul.mp hy
    obtain ⟨c, hc, colon, hcolon, rfl⟩ := mem_mul.mp hz
    obtain rfl : colon = [58] := hcolon
    obtain ⟨query, hquery, rfl⟩ := (mem_marked (c := 63) rfl).mp hq
    obtain ⟨fragment, hfragment, rfl⟩ := (mem_marked (c := 35) rfl).mp hf
    have htext (authority : Option Authority) (path : List UInt8)
        (hhier : (Parts.mk c authority path query fragment).hierText = h) :
        (Parts.mk c authority path query fragment).text =
          c ++ [58] ++ h ++ marked 63 query ++ marked 35 fragment := by
      rw [Parts.text, hhier]
      simp
    have hpathOnly (hpath : h ∈ pathAbsolute + pathRootless + pathEmpty) :
        ∃ parts : Parts, parts.Valid ipLiteral ∧
          parts.text = c ++ [58] ++ h ++ marked 63 query ++ marked 35 fragment :=
      ⟨⟨c, none, h, query, fragment⟩, ⟨hc, nofun, hpath, hquery, hfragment⟩, htext none h rfl⟩
    obtain ((hh | hh) | hh) | hh := hh
    · obtain ⟨v, hv, path, hpath, rfl⟩ := mem_mul.mp hh
      obtain ⟨slashes, hslashes, w, hw, rfl⟩ := mem_mul.mp hv
      obtain rfl : slashes = [47, 47] := hslashes
      obtain ⟨a, ha, rfl⟩ := mem_authority_iff.mp hw
      exact ⟨⟨c, some a, path, query, fragment⟩,
        ⟨hc, fun b hb => Option.some.inj hb ▸ ha, hpath, hquery, hfragment⟩,
        htext (some a) path (by simp [Parts.hierText])⟩
    · exact hpathOnly (.inl (.inl hh))
    · exact hpathOnly (.inl (.inr hh))
    · exact hpathOnly (.inr hh)
  · rintro ⟨parts, hparts, rfl⟩
    have hcolon : [58] ∈ lit ":" := rfl
    have hquery : marked 63 parts.query ∈ 1 + lit "?" * query :=
      (mem_marked rfl).mpr ⟨parts.query, hparts.query, rfl⟩
    have hfragment : marked 35 parts.fragment ∈ 1 + lit "#" * fragment :=
      (mem_marked rfl).mpr ⟨parts.fragment, hparts.fragment, rfl⟩
    have hmem := append_mem_mul (append_mem_mul (append_mem_mul
      (append_mem_mul hparts.scheme hcolon) hparts.hierText_mem) hquery) hfragment
    have htext : parts.text = parts.scheme ++ [58] ++ parts.hierText ++ marked 63 parts.query ++
        marked 35 parts.fragment := by simp [Parts.text]
    rw [htext]
    exact hmem

/-! ### Paths -/

/-- A byte of a path that is not escaped, or an escaped one. -/
def pathChar : Language UInt8 := pchar + lit "/"

theorem segment_mul_pathAbempty : segment * pathAbempty = pathChar∗ := by
  ext x
  constructor
  · intro hx
    obtain ⟨y, hy, z, hz, rfl⟩ := mem_mul.mp hx
    have hpchar {y z : List UInt8} (hy : y ∈ segment) (hz : z ∈ pathChar∗) : y ++ z ∈ pathChar∗ := by
      refine kstar_induction (P := fun y => y ++ z ∈ pathChar∗) hz (fun w hw v _ ih => ?_) hy
      rw [List.append_assoc]
      exact append_mem_kstar (.inl hw) ih
    refine hpchar hy ?_
    refine kstar_induction (P := fun z => z ∈ pathChar∗) (nil_mem_kstar _)
      (fun w hw v _ ih => ?_) hz
    obtain ⟨slash, hslash, u, hu, rfl⟩ := mem_mul.mp hw
    rw [List.append_assoc]
    exact append_mem_kstar (.inr hslash) (hpchar hu ih)
  · intro hx
    refine kstar_induction (P := fun x => x ∈ segment * pathAbempty) ?_ (fun w hw v _ ih => ?_) hx
    · exact append_mem_mul (nil_mem_kstar _) (nil_mem_kstar _)
    · obtain ⟨y, hy, z, hz, rfl⟩ := mem_mul.mp ih
      obtain hw | hw := hw
      · rw [← List.append_assoc]
        exact append_mem_mul (append_mem_kstar hw hy) hz
      · rw [← List.append_assoc, ← List.nil_append (w ++ y ++ z)]
        exact append_mem_mul (nil_mem_kstar _)
          (append_mem_kstar (append_mem_mul hw hy) hz)

theorem head_of_mem_pchar {w : List UInt8} (hw : w ∈ pchar) : ∃ c t, w = c :: t ∧ c ≠ 47 := by
  have hset {p : UInt8 → Bool} (hp : p 47 = false) (hw : w ∈ byteSet p) :
      ∃ c t, w = c :: t ∧ c ≠ 47 := by
    obtain ⟨c, hc, rfl⟩ := hw
    refine ⟨c, [], rfl, ?_⟩
    rintro rfl
    rw [hp] at hc
    cases hc
  obtain ((((hw | hw) | hw) | hw) | hw) | hw := hw
  · exact hset (by decide) hw
  · exact hset (by decide) hw
  · exact hset (by decide) hw
  · obtain ⟨x, hx, y, -, rfl⟩ := mem_mul.mp hw
    obtain ⟨percent, hpercent, z, -, rfl⟩ := mem_mul.mp hx
    obtain rfl : percent = [37] := hpercent
    exact ⟨37, z ++ y, rfl, by decide⟩
  · exact hset (by decide) hw
  · exact hset (by decide) hw

/-- A segment is empty, or begins with something else than a slash and is not empty in the grammar. -/
theorem segment_cases {y : List UInt8} (hy : y ∈ segment) :
    y = [] ∨ (y ∈ segmentNz ∧ ∃ c t, y = c :: t ∧ c ≠ 47) := by
  rw [segment, ← one_add_self_mul_kstar_eq_kstar] at hy
  obtain hnil | hmem := hy
  · exact .inl hnil
  · refine .inr ⟨hmem, ?_⟩
    obtain ⟨w, hw, v, -, rfl⟩ := mem_mul.mp hmem
    obtain ⟨c, t, rfl, hc⟩ := head_of_mem_pchar hw
    exact ⟨c, t ++ v, rfl, hc⟩

theorem pathAbempty_cases {z : List UInt8} (hz : z ∈ pathAbempty) :
    z = [] ∨ ∃ u ∈ segment, ∃ v ∈ pathAbempty, z = 47 :: (u ++ v) := by
  rw [pathAbempty, ← one_add_self_mul_kstar_eq_kstar] at hz
  obtain hnil | hmem := hz
  · exact .inl hnil
  · obtain ⟨w, hw, v, hv, rfl⟩ := mem_mul.mp hmem
    obtain ⟨slash, hslash, u, hu, rfl⟩ := mem_mul.mp hw
    obtain rfl : slash = [47] := hslash
    exact .inr ⟨u, hu, v, hv, by simp⟩

theorem append_mem_pathChar {y z : List UInt8} (hy : y ∈ segment) (hz : z ∈ pathAbempty) :
    y ++ z ∈ pathChar∗ := by
  rw [← segment_mul_pathAbempty]
  exact append_mem_mul hy hz

/-- A path after an authority. -/
theorem mem_pathAbempty_iff :
    x ∈ pathAbempty ↔ x ∈ pathChar∗ ∧ (x = [] ∨ ∃ t, x = 47 :: t) := by
  constructor
  · intro hx
    refine ⟨append_mem_pathChar (nil_mem_kstar _) hx, ?_⟩
    obtain hnil | ⟨u, -, v, -, rfl⟩ := pathAbempty_cases hx
    · exact .inl hnil
    · exact .inr ⟨_, rfl⟩
  · rintro ⟨hx, hhead⟩
    rw [← segment_mul_pathAbempty] at hx
    obtain ⟨y, hy, z, hz, rfl⟩ := mem_mul.mp hx
    obtain rfl | ⟨-, c, t, rfl, hc⟩ := segment_cases hy
    · exact hz
    · obtain hnil | ⟨t', heq⟩ := hhead
      · cases hnil
      · cases heq
        exact absurd rfl hc

/-- A path without an authority. -/
theorem mem_path_iff : x ∈ pathAbsolute + pathRootless + pathEmpty ↔
    x ∈ pathChar∗ ∧ ∀ t, x ≠ 47 :: 47 :: t := by
  have hslash : [47] ∈ lit "/" := rfl
  constructor
  · rintro ((hx | hx) | hx)
    · obtain ⟨slash, hslash', y, hy, rfl⟩ := mem_mul.mp hx
      obtain rfl : slash = [47] := hslash'
      obtain hnil | hy := hy
      · obtain rfl : y = [] := hnil
        exact ⟨append_mem_kstar (.inr hslash) (nil_mem_kstar _), nofun⟩
      · obtain ⟨u, hu, v, hv, rfl⟩ := mem_mul.mp hy
        obtain ⟨w, hw, w', hw', rfl⟩ := mem_mul.mp hu
        refine ⟨append_mem_kstar (.inr hslash)
          (append_mem_pathChar (append_mem_kstar hw hw') hv), fun t heq => ?_⟩
        obtain ⟨c, r, rfl, hc⟩ := head_of_mem_pchar hw
        cases heq
        exact hc rfl
    · obtain ⟨u, hu, v, hv, rfl⟩ := mem_mul.mp hx
      obtain ⟨w, hw, w', hw', rfl⟩ := mem_mul.mp hu
      refine ⟨append_mem_pathChar (append_mem_kstar hw hw') hv, fun t heq => ?_⟩
      obtain ⟨c, r, rfl, hc⟩ := head_of_mem_pchar hw
      exact hc (List.cons.inj heq).1
    · obtain rfl : x = [] := hx
      exact ⟨nil_mem_kstar _, nofun⟩
  · rintro ⟨hx, hhead⟩
    rw [← segment_mul_pathAbempty] at hx
    obtain ⟨y, hy, z, hz, rfl⟩ := mem_mul.mp hx
    obtain rfl | ⟨hnz, -⟩ := segment_cases hy
    · obtain rfl | ⟨u, hu, v, hv, rfl⟩ := pathAbempty_cases hz
      · exact .inr rfl
      refine .inl (.inl ?_)
      show [47] ++ (u ++ v) ∈ lit "/" * _
      refine append_mem_mul hslash ?_
      obtain rfl | ⟨hnz, -⟩ := segment_cases hu
      · obtain rfl | ⟨u', -, v', -, rfl⟩ := pathAbempty_cases hv
        · exact .inl rfl
        · exact absurd rfl (hhead _)
      · exact .inr (append_mem_mul hnz hv)
    · exact .inl (.inr (append_mem_mul hnz hz))

end Rfc3986

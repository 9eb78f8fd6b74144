import Asyncio.Uri.Literals

/-!
# Octets with leading zeros

`uriParseIpLiteral` accepts octets with leading zeros at the end of an address, which the grammar and
`spanIsIpv4` do not. Such an address is a `PaddedQuad`. All other texts are recognised exactly
(`ipLiteral_exact_iff`).
-/

namespace Asyncio

namespace Uri

open Computability Grammar Rfc3986 List

/-- An address in which an octet has leading zeros. -/
def PaddedQuad (x : List UInt8) : Prop :=
  ∃ y os, y ++ 58 :: chars "0.0.0.0" ∈ ipv6Address ∧ os.length = 4 ∧ (∀ o ∈ os, o ∈ octetText false) ∧
    (∃ o ∈ os, o.length > 1 ∧ o.head? = some 48) ∧ x = y ++ 58 :: join 46 os

theorem join_concat (c : UInt8) {xs : List (List UInt8)} (hxs : xs ≠ []) (y : List UInt8) :
    join c (xs ++ [y]) = join c xs ++ c :: y := by
  induction xs with
  | nil => exact absurd rfl hxs
  | cons x xs ih =>
    cases xs with
    | nil => rfl
    | cons x' xs =>
      rw [cons_append, join_cons c x (by simp), join_cons c x (cons_ne_nil _ _),
        ih (cons_ne_nil _ _), append_assoc, cons_append]

/-- What is before the octets of an address ends with a colon. -/
theorem text_quad {head : List (List UInt8)} {tail : Option (List (List UInt8))}
    (h : tail = none → head ≠ []) :
    ∃ y, ∀ os, (Ipv6.mk head tail (some os)).text = y ++ 58 :: join 46 os := by
  cases tail with
  | none =>
    refine ⟨join 58 head, fun os => ?_⟩
    exact join_concat 58 (h rfl) (join 46 os)
  | some t =>
    by_cases ht : t = []
    · subst ht
      refine ⟨join 58 head ++ [58], fun os => ?_⟩
      show join 58 head ++ 58 :: 58 :: join 46 os = _
      simp
    · refine ⟨join 58 head ++ 58 :: 58 :: join 58 t, fun os => ?_⟩
      show join 58 head ++ 58 :: 58 :: join 58 (t ++ [join 46 os]) = _
      rw [join_concat 58 ht]
      simp

variable {os : List (List UInt8)}

theorem colon_not_mem_join (hall : ∀ o ∈ os, o ∈ octetText false) :
    58 ∉ join 46 os := by
  intro h
  obtain heq | ⟨o, ho, hmem⟩ := mem_join h
  · cases heq
  · have hdigit := (hall o ho).1 58 hmem
    revert hdigit
    decide

theorem dot_mem_join (hlength : os.length = 4) : 46 ∈ join 46 os := by
  match os, hlength with
  | [a, b, c, d], _ => simp [join]

/-- An address without octets has no dots. -/
theorem dot_not_mem_text {octet : Language UInt8} {a : Ipv6} (ha : a.Valid octet) (hquad : a.quad = none) :
    46 ∉ a.text := by
  have hjoin {hs : List (List UInt8)} (hall : ∀ h ∈ hs, h ∈ h16) : 46 ∉ join 58 hs := by
    intro h
    obtain heq | ⟨g, hg, hmem⟩ := mem_join h
    · cases heq
    · have hhex := (mem_h16_iff.mp (hall g hg)).2.2 46 hmem
      revert hhex
      decide
  obtain ⟨head, tail, quad⟩ := a
  obtain rfl : quad = none := hquad
  cases tail with
  | none =>
    show 46 ∉ join 58 (head ++ [])
    rw [append_nil]
    exact hjoin ha.head
  | some t =>
    show 46 ∉ join 58 head ++ 58 :: 58 :: join 58 (t ++ [])
    rw [append_nil]
    simp [hjoin ha.head, hjoin (ha.tail t rfl)]

theorem last_colon {y y' q q' : List UInt8} (h : y ++ 58 :: q = y' ++ 58 :: q') (hq : 58 ∉ q) (hq' : 58 ∉ q') :
    y = y' ∧ q = q' := by
  have hsplit (y q : List UInt8) (hq : 58 ∉ q) :
      (y ++ 58 :: q).reverse.takeWhile (· != 58) = q.reverse ∧
        (y ++ 58 :: q).reverse.dropWhile (· != 58) = 58 :: y.reverse := by
    rw [reverse_append, reverse_cons, append_assoc, singleton_append]
    refine takeWhile_dropWhile_append (fun c hc => ?_) fun c hc => ?_
    · rw [bne_iff_ne]
      rintro rfl
      exact hq (mem_reverse.mp hc)
    · cases hc
      rfl
  obtain ⟨htake, hdrop⟩ := hsplit y q hq
  obtain ⟨htake', hdrop'⟩ := hsplit y' q' hq'
  rw [h, htake'] at htake
  rw [h, hdrop'] at hdrop
  exact ⟨(reverse_injective (List.cons.inj hdrop).2).symm, (reverse_injective htake).symm⟩

/-- The octets of an address are after its last colon. -/
theorem quad_of_text {octet : Language UInt8} (hoctet : octet ≤ octetText false) {a : Ipv6}
    (ha : a.Valid octet) {y : List UInt8} (hlength : os.length = 4)
    (hall : ∀ o ∈ os, o ∈ octetText false) (htext : a.text = y ++ 58 :: join 46 os) :
    ∃ os', a.quad = some os' ∧ join 46 os' = join 46 os ∧
      ∀ os'', (Ipv6.mk a.head a.tail (some os'')).text = y ++ 58 :: join 46 os'' := by
  obtain ⟨head, tail, quad⟩ := a
  cases quad with
  | none =>
    have hdot := dot_not_mem_text ha rfl
    rw [htext] at hdot
    exact absurd (by simp [dot_mem_join hlength]) hdot
  | some os' =>
    have hhead : tail = none → head ≠ [] := by
      rintro rfl rfl
      cases ha.size
    obtain ⟨y', hy'⟩ := text_quad hhead
    rw [hy' os'] at htext
    obtain ⟨rfl, hquad⟩ := last_colon htext
      (colon_not_mem_join fun o ho => hoctet ((ha.quad os' rfl).2 o ho)) (colon_not_mem_join hall)
    exact ⟨os', rfl, hquad, hy'⟩

theorem dots_injective {os os' : List (List UInt8)} (hall : ∀ o ∈ os, ∀ c ∈ o, isDigit c = true)
    (hall' : ∀ o ∈ os', ∀ c ∈ o, isDigit c = true)
    (h : os.flatMap (46 :: ·) = os'.flatMap (46 :: ·)) : os = os' := by
  induction os generalizing os' with
  | nil =>
    cases os' with
    | nil => rfl
    | cons o' os' => cases h
  | cons o os ih =>
    cases os' with
    | nil => cases h
    | cons o' os' =>
      obtain ⟨ho, hall⟩ := forall_mem_cons.mp hall
      obtain ⟨ho', hall'⟩ := forall_mem_cons.mp hall'
      have hhead (os : List (List UInt8)) : ∀ c ∈ (os.flatMap (46 :: ·)).head?, isDigit c = false := by
        have hdots := head_dots os [] fun _ => nofun
        rwa [append_nil] at hdots
      have heq : o ++ os.flatMap (46 :: ·) = o' ++ os'.flatMap (46 :: ·) := (List.cons.inj h).2
      obtain ⟨htake, hdrop⟩ := takeWhile_dropWhile_append ho (hhead os)
      obtain ⟨htake', hdrop'⟩ := takeWhile_dropWhile_append ho' (hhead os')
      rw [heq, htake'] at htake
      rw [heq, hdrop'] at hdrop
      rw [htake, ih hall hall' hdrop.symm]

theorem join_injective {os os' : List (List UInt8)} (hlength : os.length = 4) (hlength' : os'.length = 4)
    (hall : ∀ o ∈ os, o ∈ octetText false) (hall' : ∀ o ∈ os', o ∈ octetText false)
    (h : join 46 os = join 46 os') : os = os' := by
  cases os with
  | nil => cases hlength
  | cons o os =>
    cases os' with
    | nil => cases hlength'
    | cons o' os' =>
      rw [join_dots, join_dots] at h
      exact dots_injective (fun o ho => (hall o ho).1) (fun o ho => (hall' o ho).1) (congrArg (46 :: ·) h)

theorem decOctet_le : decOctet ≤ octetText false := by
  intro x hx
  rw [← octetText_true] at hx
  exact ⟨hx.1, hx.2.1, hx.2.2.1, hx.2.2.2.1, nofun⟩

theorem zeros_valid (h : os = [[48], [48], [48], [48]]) :
    os.length = 4 ∧ ∀ o ∈ os, o ∈ decOctet := by
  subst h
  refine ⟨rfl, fun o ho => ⟨0, by decide, ?_⟩⟩
  simp only [mem_cons, not_mem_nil, or_false, or_self] at ho
  rw [ho]
  rfl

/-- **An address with leading zeros in an octet is accepted, and is not one of the grammar.** -/
theorem PaddedQuad.spec {x : List UInt8} (h : PaddedQuad x) :
    (∃ out, uriParseIpLiteral (x ++ [93]) = some (out, [])) ∧ x ∉ ipv6Address := by
  obtain ⟨y, os, hmem, hlength, hall, ⟨o, ho, hpadded⟩, rfl⟩ := h
  obtain ⟨hzeros, hzero⟩ := zeros_valid rfl
  constructor
  · obtain ⟨a, ha, htext⟩ := mem_ipv6Of_iff.mp hmem
    obtain ⟨os', hquad, -, hall'⟩ :=
      quad_of_text decOctet_le ha hzeros (fun o ho => decOctet_le (hzero o ho)) htext
    refine ⟨_, uriParseIpLiteral_iff_ipv6.mpr ⟨⟨a.head, a.tail, some os⟩, ⟨ha.head, ha.tail, ?_, ?_⟩,
      hall' os, rfl⟩⟩
    · intro os'' hos''
      obtain rfl := Option.some.inj hos''
      exact ⟨hlength, hall⟩
    · have hsize := ha.size
      rw [hquad] at hsize
      exact hsize
  · intro hx
    obtain ⟨b, hb, htext⟩ := mem_ipv6Of_iff.mp hx
    obtain ⟨os', hquad, hjoin, -⟩ := quad_of_text decOctet_le hb hlength hall htext
    obtain ⟨hlength', hall'⟩ := hb.quad os' hquad
    obtain rfl := join_injective hlength' hlength (fun o ho => decOctet_le (hall' o ho)) hall hjoin
    have hstrict := hall' o ho
    rw [← octetText_true] at hstrict
    exact hstrict.2.2.2.2 rfl hpadded

/-- Without leading zeros, it is one of the grammar. -/
theorem valid_of_not_paddedQuad {a : Ipv6} (ha : a.Valid (octetText false)) (h : ¬PaddedQuad a.text) :
    a.Valid decOctet := by
  refine ⟨ha.head, ha.tail, fun os hos => ⟨(ha.quad os hos).1, fun o ho => ?_⟩, ha.size⟩
  obtain ⟨hlength, hall⟩ := ha.quad os hos
  obtain ⟨hdigits, hne, hthree, hvalue, -⟩ := hall o ho
  rw [← octetText_true]
  refine ⟨hdigits, hne, hthree, hvalue, fun _ hpadded => h ?_⟩
  obtain ⟨head, tail, quad⟩ := a
  obtain rfl : quad = some os := hos
  have hhead : tail = none → head ≠ [] := by
    rintro rfl rfl
    cases ha.size
  obtain ⟨y, hy⟩ := text_quad hhead
  refine ⟨y, os, ?_, hlength, hall, ⟨o, ho, hpadded⟩, hy os⟩
  refine mem_ipv6Of_iff.mpr ⟨⟨head, tail, some [[48], [48], [48], [48]]⟩, ⟨ha.head, ha.tail, ?_, ha.size⟩,
    hy _⟩
  intro os' hos'
  exact zeros_valid (Option.some.inj hos').symm

/-- What is accepted in front of a bracket, if there is none before. -/
theorem uriParseIpLiteral_bracket {x : List UInt8} (hx : 93 ∉ x) {r rest : List UInt8} {out : List UriComponent} :
    uriParseIpLiteral (x ++ 93 :: r) = some (out, rest) ↔
      rest = r ∧ uriParseIpLiteral (x ++ [93]) = some (out, []) := by
  constructor
  · intro h
    obtain ⟨y, heq, hy⟩ := uriParseIpLiteral_iff.mp h
    obtain ⟨t, rfl, ht⟩ | ⟨t, rfl, ht⟩ := append_eq_append_iff.mp heq
    · cases t with
      | nil =>
        rw [append_nil] at hy
        exact ⟨(List.cons.inj ht).2.symm, hy⟩
      | cons c t =>
        -- the bracket after `x` would have ended the literal
        cases ht
        rw [append_assoc, cons_append, uriParseIpLiteral_append] at hy
        obtain ⟨v, -, hv⟩ := Option.map_eq_some_iff.mp hy
        have hnil := (append_eq_nil_iff.mp (Prod.mk.inj hv).2).2
        exact absurd hnil (append_ne_nil_of_right_ne_nil _ (cons_ne_nil _ _))
    · cases t with
      | nil =>
        rw [append_nil] at hx ⊢
        exact ⟨(List.cons.inj ht).2, hy⟩
      | cons c t =>
        cases ht
        exact absurd (by simp) hx
  · rintro ⟨rfl, hy⟩
    exact uriParseIpLiteral_iff.mpr ⟨x, rfl, hy⟩

/-- **When literals are recognised exactly**: `uriParseIpLiteral` accepts the text before a bracket if it is
an address of the grammar, moves past the bracket and delivers the groups of the address, unless the text
is an address in which an octet has leading zeros. -/
theorem ipLiteral_exact_iff {x : List UInt8} (hx : 93 ∉ x) :
    (∀ r, ((uriParseIpLiteral (x ++ 93 :: r)).isSome ↔ x ∈ ipv6Address) ∧
      ∀ out rest, uriParseIpLiteral (x ++ 93 :: r) = some (out, rest) →
        rest = r ∧ ∃ a : Ipv6, a.Valid decOctet ∧ a.text = x ∧ out = [.hostIPv6 a.value]) ↔
    ¬PaddedQuad x := by
  constructor
  · intro hexact hpadded
    obtain ⟨⟨out, hout⟩, hnot⟩ := hpadded.spec
    exact hnot ((hexact []).1.mp (by rw [hout]; rfl))
  · intro hpadded r
    have hsound {out : List UriComponent} {rest : List UInt8}
        (h : uriParseIpLiteral (x ++ 93 :: r) = some (out, rest)) :
        rest = r ∧ ∃ a : Ipv6, a.Valid decOctet ∧ a.text = x ∧ out = [.hostIPv6 a.value] := by
      obtain ⟨hrest, hparse⟩ := (uriParseIpLiteral_bracket hx).mp h
      obtain ⟨a, ha, rfl, hout⟩ := uriParseIpLiteral_iff_ipv6.mp hparse
      exact ⟨hrest, a, valid_of_not_paddedQuad ha hpadded, rfl, hout⟩
    refine ⟨?_, fun out rest h => hsound h⟩
    constructor
    · intro hsome
      obtain ⟨⟨out, rest⟩, hparse⟩ := Option.isSome_iff_exists.mp hsome
      obtain ⟨-, a, ha, htext, -⟩ := hsound hparse
      exact mem_ipv6Of_iff.mpr ⟨a, ha, htext⟩
    · intro hmem
      obtain ⟨a, ha, htext⟩ := mem_ipv6Of_iff.mp hmem
      have hparse := uriParseIpLiteral_iff_ipv6.mpr ⟨a, ha.mono decOctet_le, htext, rfl⟩
      exact Option.isSome_iff_exists.mpr ⟨_, (uriParseIpLiteral_bracket hx).mpr ⟨rfl, hparse⟩⟩

theorem ipLiteral_exact_iff_loopback :
    (uriParseIpLiteral (chars "::1" ++ [93])).isSome = true ∧ chars "::1" ∈ ipv6Address := by
  have hparse : (uriParseIpLiteral (chars "::1" ++ [93])).isSome = true := by decide
  have hpadded : ¬PaddedQuad (chars "::1") := by
    rintro ⟨y, os, -, hlength, -, -, heq⟩
    have hdot : 46 ∈ chars "::1" := by
      rw [heq]
      exact mem_append_right _ (mem_cons_of_mem _ (dot_mem_join hlength))
    revert hdot
    decide
  exact ⟨hparse, ((ipLiteral_exact_iff (by decide)).mpr hpadded []).1.mp hparse⟩

/-- `::1.2.3.04` is accepted, and is not an address of the grammar. -/
theorem padded_octet_accepted :
    uriParseIpLiteral (chars "::1.2.3.04]") = some ([.hostIPv6 [0, 0, 0, 0, 0, 0, 258, 772]], []) ∧
      chars "::1.2.3.04" ∉ ipv6Address := by
  refine ⟨by decide +kernel, PaddedQuad.spec ⟨[58], [[49], [50], [51], [48, 52]], ?_, rfl, ?_, ?_, rfl⟩ |>.2⟩
  · refine mem_ipv6Of_iff.mpr ⟨⟨[], some [], some [[48], [48], [48], [48]]⟩, ⟨nofun, ?_, ?_, ?_⟩, rfl⟩
    · rintro t ht
      cases ht
      nofun
    · intro os hos
      exact zeros_valid (Option.some.inj hos).symm
    · show 0 + 0 + 2 ≤ 7
      decide
  · intro o ho
    simp only [mem_cons, not_mem_nil, or_false] at ho
    obtain rfl | rfl | rfl | rfl := ho <;>
      exact ⟨all_eq_true.mp (by decide), by decide, by decide, by decide, nofun⟩
  · exact ⟨[48, 52], by simp, by decide, rfl⟩

end Uri

end Asyncio

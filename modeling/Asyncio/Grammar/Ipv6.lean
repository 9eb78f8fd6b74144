import Asyncio.Grammar.Rfc3986

/-!
# The grammar of IPv6 addresses

The production `IPv6address` of RFC 3986. How an octet of an IPv4 address is written is a parameter;
`decOctet` is the one of the grammar.

An `Ipv6` is an address taken apart: the groups before two colons and after them, or all of them, and the
four octets at its end.

## Main results

* `mem_ipv6Of_iff` — the addresses are the texts of valid `Ipv6`s
* `Ipv6.value` — the eight groups
-/

namespace Rfc3986

open Computability Grammar List Language

/-- Texts with a byte between them. -/
def join (c : UInt8) : List (List UInt8) → List UInt8
  | [] => []
  | [x] => x
  | x :: xs => x ++ c :: join c xs

theorem join_cons (c : UInt8) (x : List UInt8) {xs : List (List UInt8)} (hxs : xs ≠ []) :
    join c (x :: xs) = x ++ c :: join c xs := by
  cases xs with
  | nil => exact absurd rfl hxs
  | cons y ys => rfl

theorem join_append (c : UInt8) (xs : List (List UInt8)) {ys : List (List UInt8)} (hys : ys ≠ []) :
    join c (xs ++ ys) = xs.flatMap (· ++ [c]) ++ join c ys := by
  induction xs with
  | nil => rfl
  | cons x xs ih =>
    rw [cons_append, join_cons c x (append_ne_nil_of_right_ne_nil _ hys), ih]
    simp

theorem mem_join {c d : UInt8} {xs : List (List UInt8)} (h : d ∈ join c xs) : d = c ∨ ∃ x ∈ xs, d ∈ x := by
  induction xs with
  | nil => cases h
  | cons x xs ih =>
    by_cases hxs : xs = []
    · subst hxs
      exact .inr ⟨x, mem_cons_self, h⟩
    · rw [join_cons c x hxs] at h
      obtain h | h := mem_append.mp h
      · exact .inr ⟨x, mem_cons_self, h⟩
      obtain rfl | h := mem_cons.mp h
      · exact .inl rfl
      · exact (ih h).imp_right fun ⟨y, hy, hd⟩ => ⟨y, mem_cons_of_mem _ hy, hd⟩

/-! ### The productions -/

def h16 : Language UInt8 := {x | 1 ≤ x.length ∧ x.length ≤ 4 ∧ x ∈ hexdig∗}

/-- At most `k` words. -/
def atMost (k : ℕ) (l : Language UInt8) : Language UInt8 := {x | ∃ i ≤ k, x ∈ l ^ i}

/-- `*k( h16 ":" ) h16`, or nothing. -/
def groupsUpTo (k : ℕ) : Language UInt8 := 1 + atMost k (h16 * lit ":") * h16

def decOctet : Language UInt8 := {x | ∃ n ≤ 255, x = decimalText n}

section Address

variable (octet : Language UInt8)

/-- Four octets, with dots between them. -/
def ipv4Of : Language UInt8 := {x | ∃ os : List (List UInt8), os.length = 4 ∧ (∀ o ∈ os, o ∈ octet) ∧
  x = join 46 os}

def ls32 : Language UInt8 := h16 * lit ":" * h16 + ipv4Of octet

def ipv6Of : Language UInt8 :=
  (h16 * lit ":") ^ 6 * ls32 octet +
  lit "::" * (h16 * lit ":") ^ 5 * ls32 octet +
  groupsUpTo 0 * lit "::" * (h16 * lit ":") ^ 4 * ls32 octet +
  groupsUpTo 1 * lit "::" * (h16 * lit ":") ^ 3 * ls32 octet +
  groupsUpTo 2 * lit "::" * (h16 * lit ":") ^ 2 * ls32 octet +
  groupsUpTo 3 * lit "::" * (h16 * lit ":") * ls32 octet +
  groupsUpTo 4 * lit "::" * ls32 octet +
  groupsUpTo 5 * lit "::" * h16 +
  groupsUpTo 6 * lit "::"

end Address

/-- `IPv6address` -/
def ipv6Address : Language UInt8 := ipv6Of decOctet

/-! ### Addresses taken apart -/

structure Ipv6 where
  head : List (List UInt8)
  tail : Option (List (List UInt8))
  quad : Option (List (List UInt8))

/-- The octets as what is between two colons. -/
def quadItem : Option (List (List UInt8)) → List (List UInt8)
  | none => []
  | some os => [join 46 os]

/-- How many groups the octets are. -/
def quadSize : Option (List (List UInt8)) → ℕ
  | none => 0
  | some _ => 2

def Ipv6.text (a : Ipv6) : List UInt8 :=
  match a.tail with
  | none => join 58 (a.head ++ quadItem a.quad)
  | some t => join 58 a.head ++ 58 :: 58 :: join 58 (t ++ quadItem a.quad)

structure Ipv6.Valid (octet : Language UInt8) (a : Ipv6) : Prop where
  head : ∀ h ∈ a.head, h ∈ h16
  tail : ∀ t, a.tail = some t → ∀ h ∈ t, h ∈ h16
  quad : ∀ os, a.quad = some os → os.length = 4 ∧ ∀ o ∈ os, o ∈ octet
  size : match a.tail with
    | none => a.head.length + quadSize a.quad = 8
    | some t => a.head.length + t.length + quadSize a.quad ≤ 7

/-- The value of a hexadecimal digit. -/
def hexDigitValue (c : UInt8) : ℕ :=
  if c ≤ 57 then c.toNat - 48 else if c ≤ 70 then c.toNat - 55 else c.toNat - 87

/-- The value of a hexadecimal number. -/
def hexValue (digits : List UInt8) : ℕ := digits.foldl (fun n c => n * 16 + hexDigitValue c) 0

/-- The two groups that four octets are. -/
def quadValue : Option (List (List UInt8)) → List ℕ
  | some [a, b, c, d] => [value a * 256 + value b, value c * 256 + value d]
  | _ => []

/-- **The eight groups of an address**, with zeros in place of the two colons. -/
def Ipv6.value (a : Ipv6) : List ℕ :=
  match a.tail with
  | none => a.head.map hexValue ++ quadValue a.quad
  | some t => a.head.map hexValue ++
    List.replicate (8 - (a.head.length + t.length + quadSize a.quad)) 0 ++ t.map hexValue ++ quadValue a.quad

variable {octet : Language UInt8}

theorem Ipv6.Valid.mono {octet' : Language UInt8} (hle : octet ≤ octet') {a : Ipv6} (ha : a.Valid octet) :
    a.Valid octet' :=
  ⟨ha.head, ha.tail, fun os hos => ⟨(ha.quad os hos).1, fun o ho => hle ((ha.quad os hos).2 o ho)⟩, ha.size⟩

variable {x : List UInt8}

theorem mem_pow_iff {n : ℕ} : x ∈ (h16 * lit ":") ^ n ↔
    ∃ hs : List (List UInt8), hs.length = n ∧ (∀ h ∈ hs, h ∈ h16) ∧ x = hs.flatMap (· ++ [58]) := by
  induction n generalizing x with
  | zero =>
    rw [pow_zero]
    constructor
    · intro hx
      exact ⟨[], rfl, nofun, hx⟩
    · rintro ⟨hs, hlength, -, rfl⟩
      rw [eq_nil_of_length_eq_zero hlength]
      rfl
  | succ n ih =>
    rw [pow_succ']
    constructor
    · intro hx
      obtain ⟨y, hy, z, hz, rfl⟩ := mem_mul.mp hx
      obtain ⟨h, hh, colon, hcolon, rfl⟩ := mem_mul.mp hy
      obtain rfl : colon = [58] := hcolon
      obtain ⟨hs, hlength, hall, rfl⟩ := ih.mp hz
      exact ⟨h :: hs, congrArg (· + 1) hlength, forall_mem_cons.mpr ⟨hh, hall⟩, rfl⟩
    · rintro ⟨hs, hlength, hall, rfl⟩
      cases hs with
      | nil => cases hlength
      | cons h hs =>
        obtain ⟨hh, hall⟩ := forall_mem_cons.mp hall
        have hcolon : [58] ∈ lit ":" := rfl
        exact append_mem_mul (append_mem_mul hh hcolon)
          (ih.mpr ⟨hs, Nat.succ.inj hlength, hall, rfl⟩)

theorem mem_groupsUpTo_iff {k : ℕ} : x ∈ groupsUpTo k ↔
    ∃ hs : List (List UInt8), hs.length ≤ k + 1 ∧ (∀ h ∈ hs, h ∈ h16) ∧ x = join 58 hs := by
  constructor
  · rintro (hnil | hmem)
    · exact ⟨[], Nat.zero_le _, nofun, hnil⟩
    · obtain ⟨y, ⟨i, hi, hy⟩, h, hh, rfl⟩ := mem_mul.mp hmem
      obtain ⟨hs, hlength, hall, rfl⟩ := mem_pow_iff.mp hy
      refine ⟨hs ++ [h], ?_, forall_mem_append.mpr ⟨hall, forall_mem_singleton.mpr hh⟩, ?_⟩
      · rw [length_append, length_singleton]
        omega
      · rw [join_append 58 hs (cons_ne_nil h [])]
        rfl
  · rintro ⟨hs, hlength, hall, rfl⟩
    obtain rfl | ⟨hs, h, rfl⟩ := eq_nil_or_concat hs
    · exact .inl rfl
    · rw [concat_eq_append] at hlength hall ⊢
      rw [length_append, length_singleton] at hlength
      obtain ⟨hall, hh⟩ := forall_mem_append.mp hall
      rw [join_append 58 hs (cons_ne_nil h [])]
      exact .inr (append_mem_mul ⟨hs.length, by omega, mem_pow_iff.mpr ⟨hs, rfl, hall, rfl⟩⟩
        (forall_mem_singleton.mp hh))

theorem mem_ls32_iff : x ∈ ls32 octet ↔
    ∃ (t : List (List UInt8)) (quad : Option (List (List UInt8))), t.length + quadSize quad = 2 ∧
      (∀ h ∈ t, h ∈ h16) ∧ (∀ os, quad = some os → os.length = 4 ∧ ∀ o ∈ os, o ∈ octet) ∧
      x = join 58 (t ++ quadItem quad) := by
  constructor
  · rintro (hx | ⟨os, hlength, hall, rfl⟩)
    · obtain ⟨y, hy, h', hh', rfl⟩ := mem_mul.mp hx
      obtain ⟨h, hh, colon, hcolon, rfl⟩ := mem_mul.mp hy
      obtain rfl : colon = [58] := hcolon
      refine ⟨[h, h'], none, rfl, ?_, nofun, ?_⟩
      · exact forall_mem_cons.mpr ⟨hh, forall_mem_singleton.mpr hh'⟩
      · simp [quadItem, join]
    · refine ⟨[], some os, rfl, nofun, ?_, rfl⟩
      intro os' hos'
      obtain rfl := Option.some.inj hos'
      exact ⟨hlength, hall⟩
  · rintro ⟨t, quad, hsize, hall, hquad, rfl⟩
    cases quad with
    | none =>
      match t, hsize with
      | [h, h'], _ =>
        have hcolon : [58] ∈ lit ":" := rfl
        have hmem := append_mem_mul (append_mem_mul (hall h (by simp)) hcolon)
          (hall h' (by simp))
        have htext : join 58 ([h, h'] ++ quadItem none) = h ++ [58] ++ h' := by simp [quadItem, join]
        rw [htext]
        exact .inl hmem
    | some os =>
      obtain rfl : t = [] := eq_nil_of_length_eq_zero (by simpa [quadSize] using hsize)
      exact .inr ⟨os, (hquad os rfl).1, (hquad os rfl).2, rfl⟩

theorem items_ne_nil {t : List (List UInt8)} {quad : Option (List (List UInt8))}
    (h : t.length + quadSize quad = 2) : t ++ quadItem quad ≠ [] := by
  cases quad with
  | none =>
    cases t with
    | nil => cases h
    | cons x t => exact cons_ne_nil _ _
  | some os => exact append_ne_nil_of_right_ne_nil _ (cons_ne_nil _ _)

/-- An address with two colons, by the languages before and after them. -/
theorem mem_colons {k n : ℕ} {l : Language UInt8} (hx : x ∈ groupsUpTo k * lit "::" * l)
    (hl : ∀ y ∈ l, ∃ (t : List (List UInt8)) (quad : Option (List (List UInt8))),
      t.length + quadSize quad = n ∧ (∀ h ∈ t, h ∈ h16) ∧
      (∀ os, quad = some os → os.length = 4 ∧ ∀ o ∈ os, o ∈ octet) ∧ y = join 58 (t ++ quadItem quad))
    (hsize : k + 1 + n ≤ 7) : ∃ a : Ipv6, a.Valid octet ∧ a.text = x := by
  obtain ⟨w, hw, z, hz, rfl⟩ := mem_mul.mp hx
  obtain ⟨u, hu, colons, hcolons, rfl⟩ := mem_mul.mp hw
  obtain rfl : colons = [58, 58] := hcolons
  obtain ⟨hs, hlength, hall, rfl⟩ := mem_groupsUpTo_iff.mp hu
  obtain ⟨t, quad, ht, htall, hquad, rfl⟩ := hl z hz
  refine ⟨⟨hs, some t, quad⟩, ⟨hall, ?_, hquad, ?_⟩, ?_⟩
  · intro t' ht'
    obtain rfl := Option.some.inj ht'
    exact htall
  · dsimp only
    omega
  · simp [Ipv6.text]

/-- Some groups, and two at the end. -/
theorem mem_groups_ls32_iff {m : ℕ} : x ∈ (h16 * lit ":") ^ m * ls32 octet ↔
    ∃ (t : List (List UInt8)) (quad : Option (List (List UInt8))), t.length + quadSize quad = m + 2 ∧
      (∀ h ∈ t, h ∈ h16) ∧ (∀ os, quad = some os → os.length = 4 ∧ ∀ o ∈ os, o ∈ octet) ∧
      x = join 58 (t ++ quadItem quad) := by
  constructor
  · intro hx
    obtain ⟨y, hy, z, hz, rfl⟩ := mem_mul.mp hx
    obtain ⟨hs, hlength, hall, rfl⟩ := mem_pow_iff.mp hy
    obtain ⟨t, quad, ht, htall, hquad, rfl⟩ := mem_ls32_iff.mp hz
    refine ⟨hs ++ t, quad, ?_, forall_mem_append.mpr ⟨hall, htall⟩, hquad, ?_⟩
    · rw [length_append]
      omega
    · rw [append_assoc, join_append 58 hs (items_ne_nil ht)]
  · rintro ⟨t, quad, hsize, hall, hquad, rfl⟩
    have hle : m ≤ t.length := by
      cases quad with
      | none =>
        have heq : t.length + 0 = m + 2 := hsize
        omega
      | some os =>
        have heq : t.length + 2 = m + 2 := hsize
        omega
    have hdrop : (t.drop m).length + quadSize quad = 2 := by
      rw [length_drop]
      omega
    rw [← take_append_drop m t] at hall ⊢
    obtain ⟨htake, hrest⟩ := forall_mem_append.mp hall
    rw [append_assoc, join_append 58 _ (items_ne_nil hdrop)]
    refine append_mem_mul ?_ ?_
    · exact mem_pow_iff.mpr ⟨t.take m, length_take_of_le hle, htake, rfl⟩
    · exact mem_ls32_iff.mpr ⟨t.drop m, quad, hdrop, hrest, hquad, rfl⟩

/-- **The addresses are the texts of valid `Ipv6`s.** -/
theorem mem_ipv6Of_iff :
    x ∈ ipv6Of octet ↔ ∃ a : Ipv6, a.Valid octet ∧ a.text = x := by
  have hcompressed {k m : ℕ} (hsize : k + 1 + (m + 2) ≤ 7)
      (hx : x ∈ groupsUpTo k * lit "::" * (h16 * lit ":") ^ m * ls32 octet) :
      ∃ a : Ipv6, a.Valid octet ∧ a.text = x := by
    rw [mul_assoc] at hx
    exact mem_colons hx (fun y hy => mem_groups_ls32_iff.mp hy) hsize
  constructor
  · rintro ((((((((hx | hx) | hx) | hx) | hx) | hx) | hx) | hx) | hx)
    · obtain ⟨t, quad, hsize, hall, hquad, rfl⟩ := mem_groups_ls32_iff.mp hx
      exact ⟨⟨t, none, quad⟩, ⟨hall, nofun, hquad, hsize⟩, rfl⟩
    · rw [mul_assoc] at hx
      obtain ⟨colons, hcolons, y, hy, rfl⟩ := mem_mul.mp hx
      obtain rfl : colons = [58, 58] := hcolons
      obtain ⟨t, quad, hsize, hall, hquad, rfl⟩ := mem_groups_ls32_iff.mp hy
      refine ⟨⟨[], some t, quad⟩, ⟨nofun, ?_, hquad, ?_⟩, rfl⟩
      · intro t' ht'
        obtain rfl := Option.some.inj ht'
        exact hall
      · dsimp only
        rw [length_nil]
        omega
    · exact hcompressed (by decide) hx
    · exact hcompressed (by decide) hx
    · exact hcompressed (by decide) hx
    · rw [← pow_one (h16 * lit ":")] at hx
      exact hcompressed (by decide) hx
    · rw [← mul_one (groupsUpTo 4 * lit "::"), ← pow_zero (h16 * lit ":")] at hx
      exact hcompressed (by decide) hx
    · refine mem_colons (n := 1) hx (fun y hy => ?_) (by decide)
      exact ⟨[y], none, rfl, forall_mem_singleton.mpr hy, nofun, rfl⟩
    · rw [← mul_one (groupsUpTo 6 * lit "::")] at hx
      refine mem_colons (n := 0) hx (fun y hy => ?_) (by decide)
      exact ⟨[], none, rfl, nofun, nofun, hy⟩
  · rintro ⟨⟨head, tail, quad⟩, h, rfl⟩
    cases tail with
    | none =>
      have hmem := mem_groups_ls32_iff.mpr ⟨head, quad, h.size, h.head, h.quad, rfl⟩
      exact .inl (.inl (.inl (.inl (.inl (.inl (.inl (.inl hmem)))))))
    | some t =>
      have hall := h.tail t rfl
      have hsize : head.length + t.length + quadSize quad ≤ 7 := h.size
      have hcolons : [58, 58] ∈ lit "::" := rfl
      have htext : (Ipv6.mk head (some t) quad).text =
          join 58 head ++ [58, 58] ++ join 58 (t ++ quadItem quad) := by simp [Ipv6.text]
      rw [htext]
      have hhead {k : ℕ} (hk : head.length ≤ k + 1) : join 58 head ++ [58, 58] ∈ groupsUpTo k * lit "::" :=
        append_mem_mul (mem_groupsUpTo_iff.mpr ⟨head, hk, h.head, rfl⟩) hcolons
      have hrest {m : ℕ} (hm : t.length + quadSize quad = m + 2) :
          join 58 (t ++ quadItem quad) ∈ (h16 * lit ":") ^ m * ls32 octet :=
        mem_groups_ls32_iff.mpr ⟨t, quad, hm, hall, h.quad, rfl⟩
      have hmem {k m : ℕ} (hk : head.length ≤ k + 1) (hm : t.length + quadSize quad = m + 2) :
          join 58 head ++ [58, 58] ++ join 58 (t ++ quadItem quad) ∈
            groupsUpTo k * lit "::" * (h16 * lit ":") ^ m * ls32 octet := by
        rw [mul_assoc]
        exact append_mem_mul (hhead hk) (hrest hm)
      obtain hw | hw | hw | hw | hw | hw | hw | hw :
          t.length + quadSize quad = 0 ∨ t.length + quadSize quad = 1 ∨ t.length + quadSize quad = 0 + 2 ∨
          t.length + quadSize quad = 1 + 2 ∨ t.length + quadSize quad = 2 + 2 ∨
          t.length + quadSize quad = 3 + 2 ∨ t.length + quadSize quad = 4 + 2 ∨
          t.length + quadSize quad = 5 + 2 := by omega
      · obtain rfl : t = [] := eq_nil_of_length_eq_zero (by omega)
        cases quad with
        | some os => cases hw
        | none =>
          refine .inr ?_
          rw [nil_append, show join 58 (quadItem none) = [] from rfl, append_nil]
          exact hhead (by omega)
      · cases quad with
        | some os =>
          have hw' : t.length + 2 = 1 := hw
          omega
        | none =>
          obtain ⟨g, rfl⟩ := length_eq_one_iff.mp hw
          exact .inl (.inr (append_mem_mul (hhead (by omega)) (forall_mem_singleton.mp hall)))
      · have hm := hmem (k := 4) (by omega) hw
        rw [pow_zero, mul_one] at hm
        exact .inl (.inl (.inr hm))
      · have hm := hmem (k := 3) (by omega) hw
        rw [pow_one] at hm
        exact .inl (.inl (.inl (.inr hm)))
      · exact .inl (.inl (.inl (.inl (.inr (hmem (by omega) hw)))))
      · exact .inl (.inl (.inl (.inl (.inl (.inr (hmem (by omega) hw))))))
      · exact .inl (.inl (.inl (.inl (.inl (.inl (.inr (hmem (by omega) hw)))))))
      · obtain rfl : head = [] := eq_nil_of_length_eq_zero (by omega)
        refine .inl (.inl (.inl (.inl (.inl (.inl (.inl (.inr ?_)))))))
        rw [mul_assoc]
        exact append_mem_mul (a := [58, 58]) hcolons (hrest hw)

end Rfc3986

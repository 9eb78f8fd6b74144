import Asyncio.Grammar.Rfc5952
import Asyncio.Uri.Build
import Asyncio.Uri.Literals

/-!
# IPv6 addresses of hosts

`URI::build` looks for the longest run of zero groups and writes it as two colons. The text is the one of
RFC 5952, and `uriParseIpLiteral` reads it as the same groups.

## Main results

* `zeroRun_zeroLoop` — the run that is found is the longest
* `text_ipv6Text` — the text is canonical
* `uriParseIpLiteral_ipv6Text` — it is read back
-/

namespace Asyncio

namespace Uri

open Rfc3986 Rfc5952 List

/-! ### The longest run of zeros -/

/-- What `zeroStart` and `zeroSize` are before the group `i`. -/
structure ZeroRun (groups : List ℕ) (i : ℕ) (zero : Option ℕ × ℕ) : Prop where
  pos : 1 ≤ zero.2
  none : zero.1 = none → zero.2 = 1
  run : ∀ s, zero.1 = some s → 2 ≤ zero.2 ∧ Zeros groups s zero.2 ∧ s + zero.2 ≤ i
  longest : ∀ s n, Zeros groups s n → s + n ≤ i →
    n ≤ zero.2 ∧ (n = zero.2 → 2 ≤ n → ∃ s', zero.1 = some s' ∧ s' ≤ s)

variable {groups : List ℕ} {zero : Option ℕ × ℕ}

/-- A group that is not zero. -/
theorem ZeroRun.skip {i : ℕ} (h : ZeroRun groups i zero)
    (hi : groups[i]? ≠ some 0) : ZeroRun groups (i + 1) zero where
  pos := h.pos
  none := h.none
  run := by
    intro s hs
    obtain ⟨htwo, hrun, hle⟩ := h.run s hs
    exact ⟨htwo, hrun, by omega⟩
  longest := by
    intro s n hrun hle
    by_cases hn : n = 0
    · have hpos := h.pos
      exact ⟨by omega, fun _ htwo => by omega⟩
    by_cases hlast : s + n = i + 1
    · exact absurd (hrun i (by omega) (by omega)) hi
    · exact h.longest s n hrun (by omega)

/-- A run from `i` on that cannot be made longer. -/
theorem ZeroRun.extend {i size : ℕ} (h : ZeroRun groups i zero)
    (hrun : Zeros groups i size) (hbefore : i = 0 ∨ groups[i - 1]? ≠ some 0) :
    ZeroRun groups (i + size) (if size > zero.2 then (some i, size) else zero) := by
  have hpos := h.pos
  -- a run that ends after `i` begins at `i` or later
  have hstart {s n : ℕ} (hother : Zeros groups s n) (hn : i < s + n) : i ≤ s := by
    by_contra hlt
    obtain hzero | hne := hbefore
    · omega
    · exact hne (hother (i - 1) (by omega) (by omega))
  split
  · next hgt =>
    refine ⟨by dsimp only; omega, nofun, ?_, ?_⟩
    · intro s hs
      obtain rfl := Option.some.inj hs
      exact ⟨by dsimp only; omega, hrun, le_rfl⟩
    · intro s n hother hle
      dsimp only
      by_cases hn : s + n ≤ i
      · obtain ⟨hmax, -⟩ := h.longest s n hother hn
        exact ⟨by omega, fun heq => by omega⟩
      · have hle' := hstart hother (by omega)
        exact ⟨by omega, fun _ _ => ⟨i, rfl, hle'⟩⟩
  · next hle =>
    refine ⟨hpos, h.none, ?_, ?_⟩
    · intro s hs
      obtain ⟨htwo, hzeros, hend⟩ := h.run s hs
      exact ⟨htwo, hzeros, by omega⟩
    · intro s n hother hend
      by_cases hn : s + n ≤ i
      · exact h.longest s n hother hn
      · have hle' := hstart hother (by omega)
        refine ⟨by omega, fun heq htwo => ?_⟩
        cases hzero : zero.1 with
        | none =>
          have hone := h.none hzero
          omega
        | some s' =>
          obtain ⟨-, -, hbound⟩ := h.run s' hzero
          exact ⟨s', rfl, by omega⟩

theorem getElem?_takeWhile (p : List ℕ) :
    (∀ k < (p.takeWhile (· == 0)).length, p[k]? = some 0) ∧ p[(p.takeWhile (· == 0)).length]? ≠ some 0 := by
  induction p with
  | nil => exact ⟨nofun, nofun⟩
  | cons g p ih =>
    by_cases hg : g = 0
    · obtain ⟨hall, hnext⟩ := ih
      rw [takeWhile_cons_of_pos (by simp [hg]), length_cons]
      refine ⟨fun k hk => ?_, hnext⟩
      cases k with
      | zero => rw [hg, getElem?_cons_zero]
      | succ k => exact hall k (Nat.lt_of_succ_lt_succ hk)
    · rw [takeWhile_cons_of_neg (by simp [hg])]
      refine ⟨nofun, fun h => hg ?_⟩
      exact Option.some.inj h

/-- **The loop finds the longest run**, the first of several. -/
theorem zeroRun_zeroLoop {fuel i : ℕ}
    (hfuel : groups.length - i ≤ fuel) (hi : i ≤ groups.length) (hzero : ZeroRun groups i zero)
    (hbefore : i = 0 ∨ groups[i - 1]? ≠ some 0 ∨ groups[i]? ≠ some 0) :
    ZeroRun groups groups.length (zeroLoop fuel i (groups.drop i) zero) := by
  induction fuel generalizing i zero with
  | zero =>
    obtain rfl : i = groups.length := by omega
    exact hzero
  | succ fuel ih =>
    cases hdrop : groups.drop i with
    | nil =>
      obtain rfl : i = groups.length := Nat.le_antisymm hi (drop_eq_nil_iff.mp hdrop)
      exact hzero
    | cons g p =>
      have hget (k : ℕ) : groups[i + k]? = (g :: p)[k]? := by rw [← hdrop, getElem?_drop]
      have hlength := congrArg List.length hdrop
      rw [length_drop, length_cons] at hlength
      have hnext (k : ℕ) : (g :: p).drop k = groups.drop (i + k) := by rw [← hdrop, drop_drop]
      rw [zeroLoop]
      split
      · next hg =>
        have hhead : groups[i]? ≠ some 0 := by
          rw [← Nat.add_zero i, hget 0]
          simpa using hg
        rw [show p = groups.drop (i + 1) from hnext 1]
        exact ih (by omega) (by omega) (hzero.skip hhead) (.inr (.inl hhead))
      · next hg =>
        obtain ⟨hall, hend⟩ := getElem?_takeWhile (g :: p)
        have hsize : ((g :: p).takeWhile (· == 0)).length ≤ (g :: p).length :=
          (List.takeWhile_prefix _).length_le
        have hpos : 0 < ((g :: p).takeWhile (· == 0)).length := by
          rw [takeWhile_cons_of_pos (by simpa using hg)]
          exact Nat.succ_pos _
        generalize ((g :: p).takeWhile (· == 0)).length = size at hall hend hsize hpos ⊢
        rw [length_cons] at hsize
        have hrun : Zeros groups i size := by
          intro k hk hlt
          rw [show k = i + (k - i) by omega, hget]
          exact hall (k - i) (by omega)
        have hbefore' : i = 0 ∨ groups[i - 1]? ≠ some 0 := by
          obtain hzero | hne | hne := hbefore
          · exact .inl hzero
          · exact .inr hne
          · exact absurd (hrun i (Nat.le_refl i) (by omega)) hne
        dsimp only
        rw [hnext]
        refine ih (by omega) (by omega) (hzero.extend hrun hbefore') (.inr (.inr ?_))
        rw [hget]
        exact hend

/-! ### The text of an address -/

/-- The groups after the run. -/
theorem ipv6Loop_after {fuel i : ℕ} {p : List ℕ} (hfuel : p.length ≤ fuel)
    (hzero : ∀ j, i ≤ j → zero.1 ≠ some j) : ipv6Loop zero fuel i p = join 58 (p.map hexText) := by
  induction p generalizing fuel i with
  | nil => cases fuel <;> rfl
  | cons g p ih =>
    cases fuel with
    | zero => cases hfuel
    | succ fuel =>
      rw [ipv6Loop, if_neg (hzero i (Nat.le_refl i)),
        ih (Nat.le_of_succ_le_succ hfuel) fun j hj => hzero j (by omega)]
      cases p with
      | nil => simp [join]
      | cons g' p => simp [join, hzero (i + 1) (by omega)]

/-- The groups up to the run. -/
theorem ipv6Loop_before {n fuel i : ℕ} {x c : List ℕ} (hn : 1 ≤ n)
    (hfuel : (x ++ (List.replicate n 0 ++ c)).length ≤ fuel) :
    ipv6Loop (some (i + x.length), n) fuel i (x ++ (List.replicate n 0 ++ c)) =
      join 58 (x.map hexText) ++ 58 :: 58 :: join 58 (c.map hexText) := by
  induction x generalizing fuel i with
  | nil =>
    cases n with
    | zero => omega
    | succ n =>
      cases fuel with
      | zero => simp at hfuel
      | succ fuel =>
        have hdrop : (List.replicate (n + 1) 0 ++ c).drop (n + 1) = c := by
          rw [drop_append_of_le_length (by simp)]
          simp
        have hafter := @ipv6Loop_after (some i, n + 1) fuel (i + (n + 1)) c
          (by simp at hfuel; omega) (by intro j hj heq; cases heq; omega)
        show ipv6Loop (some i, n + 1) (fuel + 1) i (0 :: (List.replicate n 0 ++ c)) = _
        rw [ipv6Loop, if_pos rfl]
        show 58 :: 58 :: ipv6Loop (some i, n + 1) fuel (i + (n + 1))
          ((List.replicate (n + 1) 0 ++ c).drop (n + 1)) = _
        rw [hdrop, hafter]
        rfl
  | cons g x ih =>
    cases fuel with
    | zero => simp at hfuel
    | succ fuel =>
      have hne : ¬some (i + (g :: x).length) = some i := by
        rw [length_cons]
        intro heq
        have := Option.some.inj heq
        omega
      have hrec := @ih fuel (i + 1) (by simp at hfuel ⊢; omega)
      rw [show i + 1 + x.length = i + (g :: x).length by rw [length_cons]; omega] at hrec
      rw [cons_append, ipv6Loop, if_neg hne, hrec]
      cases x with
      | nil => simp [join]
      | cons g' x => simp [join]

/-- **The text of an address**, with the longest run of zeros. -/
theorem ipv6Text_cases (groups : List ℕ) (hlength : groups.length = 8) :
    (ipv6Text groups = join 58 (groups.map hexText) ∧ ∀ s n, Zeros groups s n → n ≤ 1) ∨
      ∃ s n, 2 ≤ n ∧ Zeros groups s n ∧
        (∀ s' n', Zeros groups s' n' → n' ≤ n ∧ (n' = n → s ≤ s')) ∧
        ipv6Text groups = join 58 ((groups.take s).map hexText) ++
          58 :: 58 :: join 58 ((groups.drop (s + n)).map hexText) := by
  have hstart : ZeroRun groups 0 (none, 1) := by
    refine ⟨Nat.le_refl 1, fun _ => rfl, nofun, fun s n _ hle => ?_⟩
    exact ⟨by dsimp only; omega, fun _ htwo => by omega⟩
  have hrun : ZeroRun groups groups.length (zeroLoop 8 0 groups (none, 1)) :=
    zeroRun_zeroLoop (by omega) (Nat.zero_le _) hstart (.inl rfl)
  have hlongest {s n : ℕ} (hzeros : Zeros groups s n) :
      n ≤ (zeroLoop 8 0 groups (none, 1)).2 ∧ (n = (zeroLoop 8 0 groups (none, 1)).2 → 2 ≤ n →
        ∃ s', (zeroLoop 8 0 groups (none, 1)).1 = some s' ∧ s' ≤ s) := by
    by_cases hn : n = 0
    · exact ⟨by omega, fun _ htwo => by omega⟩
    · exact hrun.longest s n hzeros (hzeros.add_le (by omega))
  unfold ipv6Text
  generalize zeroLoop 8 0 groups (none, 1) = zero at hrun hlongest ⊢
  obtain ⟨start, n⟩ := zero
  cases start with
  | none =>
    refine .inl ⟨ipv6Loop_after (Nat.le_of_eq hlength) nofun, fun s n' hzeros => ?_⟩
    have hone := hrun.none rfl
    obtain ⟨hle, -⟩ := hlongest hzeros
    dsimp only at hone hle
    omega
  | some s =>
    obtain ⟨htwo, hzeros, hle⟩ := hrun.run s rfl
    dsimp only at htwo hzeros hle
    refine .inr ⟨s, n, htwo, hzeros, ?_, ?_⟩
    · intro s' n' hother
      obtain ⟨hmax, hfirst⟩ := hlongest hother
      refine ⟨hmax, fun heq => ?_⟩
      obtain ⟨s'', hs'', hle''⟩ := hfirst heq (by omega)
      cases hs''
      exact hle''
    · have hgroups := hzeros.eq_append hle
      have htake : (groups.take s).length = s := length_take_of_le (by omega)
      have hbefore := @ipv6Loop_before n 8 0 (groups.take s) (groups.drop (s + n)) (by omega)
        (by rw [← hgroups, hlength])
      rw [htake, Nat.zero_add, ← hgroups] at hbefore
      exact hbefore

theorem hexDigits_concat (g k : ℕ) : hexDigits g (k + 1) = hexDigits (g / 16) k ++ [hexDigit (g % 16)] := by
  induction k with
  | zero =>
    rw [hexDigits, hexDigits, hexDigits, shift_digit, and_fifteen, and_fifteen]
    simp
  | succ k ih =>
    rw [hexDigits, ih, hexDigits, shift_digit, shift_digit, Nat.div_div_eq_div_mul,
      ← Nat.pow_succ', cons_append]

theorem hexShift_cases (g k : ℕ) : hexShift g k = 0 ∨ 16 ^ hexShift g k ≤ g := by
  induction k with
  | zero => exact .inl rfl
  | succ k ih =>
    rw [hexShift, shift_digit]
    split
    · exact ih
    · next hne =>
      refine .inr ?_
      by_contra hlt
      rw [Nat.div_eq_of_lt (Nat.lt_of_not_le hlt)] at hne
      exact hne rfl

theorem hexDigits_eq {g k : ℕ} (hlt : g < 16 ^ (k + 1)) (hle : k = 0 ∨ 16 ^ k ≤ g) :
    hexDigits g k = groupText g := by
  have hdigit {n : ℕ} (hn : n < 16) : hexDigit n = .ofNat n.digitChar.toNat := by
    have hall : ∀ n : Fin 16, hexDigit n = .ofNat (Nat.digitChar n).toNat := by decide
    exact hall ⟨n, hn⟩
  induction k generalizing g with
  | zero =>
    rw [Nat.zero_add, pow_one] at hlt
    rw [hexDigits, and_fifteen, Nat.mod_eq_of_lt hlt, groupText, Nat.toDigits_of_lt_base hlt, hdigit hlt]
    rfl
  | succ k ih =>
    have hbase : 16 ≤ g := by
      have hpow : 16 ^ 1 ≤ 16 ^ (k + 1) := Nat.pow_le_pow_right (by decide) (by omega)
      obtain hzero | hle := hle
      · omega
      · omega
    have hnext : g / 16 < 16 ^ (k + 1) := Nat.div_lt_of_lt_mul (by rwa [Nat.pow_succ'] at hlt)
    have hnext' : k = 0 ∨ 16 ^ k ≤ g / 16 := by
      refine .inr ((Nat.le_div_iff_mul_le (by decide)).mpr ?_)
      rw [← Nat.pow_succ]
      exact hle.resolve_left (Nat.succ_ne_zero k)
    rw [hexDigits_concat, ih hnext hnext', groupText, groupText, Nat.toDigits_of_base_le (by decide) hbase,
      map_append, hdigit (Nat.mod_lt _ (by decide))]
    rfl

theorem map_hexText (hgroups : ∀ g ∈ groups, g < 65536) :
    groups.map hexText = groups.map groupText := by
  refine map_congr_left fun g hg => ?_
  obtain ⟨-, hlt⟩ := lt_hexShift (k := 3) (hgroups g hg)
  exact hexDigits_eq hlt (hexShift_cases g 3)

/-- **The text is canonical.** -/
theorem text_ipv6Text (hlength : groups.length = 8) (hgroups : ∀ g ∈ groups, g < 65536) :
    Text groups (ipv6Text groups) := by
  obtain ⟨htext, hnone⟩ | ⟨s, n, htwo, hrun, hlongest, htext⟩ := ipv6Text_cases groups hlength
  · rw [htext, map_hexText hgroups]
    exact .plain hnone
  · rw [htext, map_hexText fun g hg => hgroups g (mem_of_mem_take hg),
      map_hexText fun g hg => hgroups g (mem_of_mem_drop hg)]
    exact .compressed htwo hrun hlongest

/-! ### Reading the text of an address -/

theorem map_hexValue (hgroups : ∀ g ∈ groups, g < 65536) :
    (∀ h ∈ groups.map hexText, h ∈ h16) ∧ (groups.map hexText).map hexValue = groups := by
  have hgroup {g : ℕ} (hg : g < 65536) : hexText g ∈ h16 ∧ hexValue (hexText g) = g := by
    obtain ⟨hhex, hne, hlength, hvalue⟩ := hexText_spec hg
    have hmem : hexText g ∈ h16 := mem_h16_iff.mpr ⟨hne, hlength, hhex⟩
    exact ⟨hmem, by rw [← hexadecimal_eq (mem_h16_iff.mp hmem).2.2, hvalue]⟩
  constructor
  · exact forall_mem_map.mpr fun g hg => (hgroup (hgroups g hg)).1
  · rw [map_map]
    exact (map_congr_left fun g hg => (hgroup (hgroups g hg)).2).trans (map_id groups)

/-- **The text of an address** is a literal that is read as this address. -/
theorem uriParseIpLiteral_ipv6Text (hlength : groups.length = 8) (hgroups : ∀ g ∈ groups, g < 65536):
    uriParseIpLiteral (ipv6Text groups ++ [93]) = some ([.hostIPv6 groups], []) := by
  rw [uriParseIpLiteral_iff_ipv6]
  obtain ⟨htext, -⟩ | ⟨s, n, htwo, hrun, -, htext⟩ := ipv6Text_cases groups hlength
  · obtain ⟨hall, hvalue⟩ := map_hexValue hgroups
    refine ⟨⟨groups.map hexText, none, none⟩, ⟨hall, by rintro _ ⟨⟩, by rintro _ ⟨⟩, ?_⟩, ?_, ?_⟩
    · simp [quadSize, hlength]
    · rw [htext, Ipv6.text]
      simp [quadItem]
    · rw [Ipv6.value]
      simp [hvalue, quadValue]
  · have hle := hrun.add_le (by omega)
    have htake : ∀ g ∈ groups.take s, g < 65536 := fun g hg => hgroups g (mem_of_mem_take hg)
    have hdrop : ∀ g ∈ groups.drop (s + n), g < 65536 := fun g hg => hgroups g (mem_of_mem_drop hg)
    obtain ⟨hhead, hheadValue⟩ := map_hexValue htake
    obtain ⟨htail, htailValue⟩ := map_hexValue hdrop
    have hcount : 8 - ((groups.take s).length + (groups.drop (s + n)).length) = n := by
      rw [length_take, length_drop]
      omega
    refine ⟨⟨(groups.take s).map hexText, some ((groups.drop (s + n)).map hexText), none⟩,
      ⟨hhead, ?_, by rintro _ ⟨⟩, ?_⟩, ?_, ?_⟩
    · intro t ht
      obtain rfl := Option.some.inj ht
      exact htail
    · dsimp only
      rw [length_map, length_map, quadSize]
      omega
    · rw [htext, Ipv6.text]
      simp [quadItem]
    · rw [value_some, hheadValue, length_map, length_map, quadSize, Nat.add_zero, hcount, itemsValue,
        htailValue, quadValue, append_nil, append_assoc, ← hrun.eq_append hle]
      rintro _ _ _ _ ⟨⟩

/-- **The text of an IPv6 host** that `URI::build` writes is the canonical one in brackets, it is read as
the groups it was written for, and no other groups have it. -/
theorem ipv6_host_text (g : Fin 8 → UInt16) :
    ∃ text, hostText (.ipv6 (List.ofFn fun i => (g i).toNat)) = 91 :: (text ++ [93]) ∧
      Text (List.ofFn fun i => (g i).toNat) text ∧
      uriParseIpLiteral (text ++ [93]) = some ([.hostIPv6 (List.ofFn fun i => (g i).toNat)], []) ∧
      ∀ other : Fin 8 → UInt16, hostText (.ipv6 (List.ofFn fun i => (other i).toNat)) =
        hostText (.ipv6 (List.ofFn fun i => (g i).toNat)) → other = g := by
  have hlength (g : Fin 8 → UInt16) : (List.ofFn fun i => (g i).toNat).length = 8 := length_ofFn
  have hgroups (g : Fin 8 → UInt16) : ∀ n ∈ List.ofFn fun i => (g i).toNat, n < 65536 := by
    intro n hn
    obtain ⟨i, rfl⟩ := mem_ofFn.mp hn
    exact (g i).toNat_lt
  have hread (g : Fin 8 → UInt16) := uriParseIpLiteral_ipv6Text (hlength g) (hgroups g)
  refine ⟨_, rfl, text_ipv6Text (hlength g) (hgroups g), hread g, fun other heq => ?_⟩
  have htext : ipv6Text (List.ofFn fun i => (other i).toNat) ++ [93] =
      ipv6Text (List.ofFn fun i => (g i).toNat) ++ [93] := (List.cons.inj heq).2
  have hboth := hread other
  rw [htext, hread g] at hboth
  have hlist : (List.ofFn fun i => (g i).toNat) = List.ofFn fun i => (other i).toNat := by
    simpa using hboth
  refine funext fun i => UInt16.toNat_inj.mp ?_
  exact (congrFun (ofFn_injective hlist) i).symm

end Uri

end Asyncio

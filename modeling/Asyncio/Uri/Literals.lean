import Asyncio.Uri.Hosts

/-!
# IPv6 literals

The loop of `uriParseIpLiteral` reads groups with colons between them, four octets at the end, and once two
colons. What it accepts are the addresses of the grammar in which an octet may have leading zeros
(`uriParseIpLiteral_iff_ipv6`), and what it delivers are their groups.

## Main results

* `ipLiteralLoop_last`, `ipLiteralLoop_compression` — the loop reads groups and two colons
* `ipLiteralLoop_sound` — it reads nothing else
* `uriParseIpLiteral_iff_ipv6` — what is accepted
-/

namespace Asyncio

namespace Uri

open Computability Grammar Rfc3986 List

/-! ### Groups -/

variable {h : List UInt8}

theorem mem_h16_iff :
    h ∈ h16 ↔ h ≠ [] ∧ h.length ≤ 4 ∧ ∀ c ∈ h, isHexDigit c = true := by
  have hstar : h ∈ hexdig∗ ↔ ∀ c ∈ h, isHexDigit c = true := by
    rw [hexdig_eq]
    exact mem_kstar_byteSet
  constructor
  · rintro ⟨hpos, hlength, hhex⟩
    exact ⟨ne_nil_of_length_pos hpos, hlength, hstar.mp hhex⟩
  · rintro ⟨hne, hlength, hhex⟩
    exact ⟨length_pos_of_ne_nil hne, hlength, hstar.mpr hhex⟩

theorem head_of_mem_h16 (hh : h ∈ h16) :
    ∃ c t, h = c :: t ∧ isHexDigit c = true := by
  obtain ⟨hne, -, hhex⟩ := mem_h16_iff.mp hh
  cases h with
  | nil => exact absurd rfl hne
  | cons c t => exact ⟨c, t, rfl, hhex c mem_cons_self⟩

variable {fuel : ℕ}

/-- One group of the loop. -/
theorem ipLiteralLoop_group {ip : IpGroups} (hh : h ∈ h16) (hcount : ip.count ≠ 8)
    {c : UInt8} (hc : isHexDigit c = false) (hdot : c ≠ 46) (r : List UInt8) :
    ipLiteralLoop (fuel + 1) ip (h ++ c :: r) =
      if c = 58 then
        if r.head? = some 58 then
          if (ip.add [hexValue h]).compression then none
          else ipLiteralLoop fuel { ip.add [hexValue h] with compression := true } (r.drop 1)
        else if r.head?.any isHexDigit then ipLiteralLoop fuel (ip.add [hexValue h]) r
        else none
      else if c ≠ 93 then none
      else ipLiteralLoop fuel (ip.add [hexValue h]) (c :: r) := by
  obtain ⟨hne, hlength, hhex⟩ := mem_h16_iff.mp hh
  have hhead : ∀ d ∈ (c :: r).head?, isHexDigit d = false := by
    intro d hd
    cases hd
    exact hc
  obtain ⟨htake, hdrop⟩ := takeWhile_dropWhile_append hhex hhead
  have hbracket : (h ++ c :: r).head? ≠ some 93 := by
    obtain ⟨d, t, rfl, hd⟩ := head_of_mem_h16 hh
    have hne : d ≠ 93 := isHexDigit_ne hd (by decide)
    simpa using hne
  rw [ipLiteralLoop, if_neg hbracket, if_neg hcount, htake, hdrop]
  dsimp only
  rw [if_neg (by simp [hne, hlength]), if_neg (by simpa using hdot), hexadecimal_eq hhex]

/-- The two groups that four octets are. -/
theorem quadValue_eq {os : List (List UInt8)} (hlength : os.length = 4)
    (hall : ∀ o ∈ os, o ∈ octetText false) :
    ∃ o₀ o₁ o₂ o₃, os.map decimal = [o₀, o₁, o₂, o₃] ∧
      quadValue (some os) = [o₀ <<< 8 ||| o₁, o₂ <<< 8 ||| o₃] := by
  match os, hlength with
  | [a, b, c, d], _ =>
    have hpair {x y : List UInt8} (hy : y ∈ octetText false) :
        decimal x <<< 8 ||| decimal y = value x * 256 + value y := by
      have hlt : decimal y < 2 ^ 8 := Nat.lt_succ_of_le hy.2.2.2.1
      rw [← Nat.shiftLeft_add_eq_or_of_lt hlt, Nat.shiftLeft_eq]
      rfl
    refine ⟨_, _, _, _, rfl, ?_⟩
    rw [hpair (hall b (by simp)), hpair (hall d (by simp))]
    rfl

/-- Four octets at the end. -/
theorem ipLiteralLoop_quad {ip : IpGroups} {os : List (List UInt8)} (hlength : os.length = 4)
    (hall : ∀ o ∈ os, o ∈ octetText false) (hcount : ip.count ≤ 6) (r : List UInt8) :
    ipLiteralLoop (fuel + 1) ip (join 46 os ++ 93 :: r) = some (ip.add (quadValue (some os)), 93 :: r) := by
  obtain ⟨o₀, o₁, o₂, o₃, hvalues, hvalue⟩ := quadValue_eq hlength hall
  have hbracket : ∀ c ∈ (93 :: r).head?, isDigit c = false := by
    intro c hc
    cases hc
    rfl
  have hquad := parseQuad_iff.mpr ⟨os, hlength, hall, rfl, rfl, hbracket⟩
  match os, hlength with
  | [a, b, c, d], _ =>
    obtain ⟨hdigits, hne, hthree, -, -⟩ := hall a (by simp)
    have hhex : ∀ c ∈ a, isHexDigit c = true := by
      intro c hc
      have hdigit := hdigits c hc
      rw [isDigit] at hdigit
      rw [isHexDigit, hdigit]
      rfl
    have htext : join 46 [a, b, c, d] ++ 93 :: r = a ++ 46 :: (join 46 [b, c, d] ++ 93 :: r) := by
      simp [join]
    have hdot : ∀ e ∈ (46 :: (join 46 [b, c, d] ++ 93 :: r)).head?, isHexDigit e = false := by
      intro e he
      cases he
      rfl
    obtain ⟨htake, hdrop⟩ := takeWhile_dropWhile_append hhex hdot
    have hhead : (a ++ 46 :: (join 46 [b, c, d] ++ 93 :: r)).head? ≠ some 93 := by
      cases a with
      | nil => exact absurd rfl hne
      | cons e t =>
        have hne : e ≠ 93 := isHexDigit_ne (hhex e mem_cons_self) (by decide)
        simpa using hne
    rw [hvalues] at hquad
    rw [htext] at hquad ⊢
    rw [ipLiteralLoop, if_neg hhead, if_neg (by omega), htake, hdrop]
    dsimp only
    rw [if_neg (by simp [hne]; omega), if_pos (head?_cons ..), hquad]
    dsimp only
    rw [if_neg (by simp; omega), hvalue]

theorem count_add (ip : IpGroups) (groups : List ℕ) : (ip.add groups).count = ip.count + groups.length := by
  unfold IpGroups.add IpGroups.count
  split
  · simp [Nat.add_assoc]
  · simp [Nat.add_right_comm]

theorem add_add (ip : IpGroups) (x y : List ℕ) : (ip.add x).add y = ip.add (x ++ y) := by
  unfold IpGroups.add
  cases hip : ip.compression <;> simp

theorem add_nil (ip : IpGroups) : ip.add [] = ip := by
  unfold IpGroups.add
  split <;> simp

/-! ### What the loop reads -/

/-- Groups and octets at the end of an address. -/
structure Items (t : List (List UInt8)) (quad : Option (List (List UInt8))) : Prop where
  groups : ∀ h ∈ t, h ∈ h16
  octets : ∀ os, quad = some os → os.length = 4 ∧ ∀ o ∈ os, o ∈ octetText false

/-- The values of groups and octets. -/
def itemsValue (t : List (List UInt8)) (quad : Option (List (List UInt8))) : List ℕ :=
  t.map hexValue ++ quadValue quad

variable {t : List (List UInt8)} {quad : Option (List (List UInt8))}

theorem Items.length_value (h : Items t quad) :
    (itemsValue t quad).length = t.length + quadSize quad := by
  rw [itemsValue, length_append, length_map]
  cases quad with
  | none => rfl
  | some os =>
    obtain ⟨hlength, -⟩ := h.octets os rfl
    match os, hlength with
    | [a, b, c, d], _ => rfl

theorem Items.head (h : Items t quad) (hne : t ++ quadItem quad ≠ []) (r : List UInt8):
    ∃ c s, join 58 (t ++ quadItem quad) ++ r = c :: s ∧ isHexDigit c = true := by
  have hjoin {x : List UInt8} {xs : List (List UInt8)} {c : UInt8} {s : List UInt8} (hx : x = c :: s) :
      ∃ s', join 58 (x :: xs) ++ r = c :: s' := by
    subst hx
    cases xs with
    | nil => exact ⟨s ++ r, rfl⟩
    | cons y ys => exact ⟨s ++ 58 :: join 58 (y :: ys) ++ r, rfl⟩
  cases t with
  | cons x t =>
    obtain ⟨c, s, hx, hc⟩ := head_of_mem_h16 (h.groups x mem_cons_self)
    obtain ⟨s', hs'⟩ := @hjoin x (t ++ quadItem quad) c s hx
    exact ⟨c, s', hs', hc⟩
  | nil =>
    cases quad with
    | none => exact absurd rfl hne
    | some os =>
      obtain ⟨hlength, hall⟩ := h.octets os rfl
      match os, hlength with
      | [a, b, c, d], _ =>
        obtain ⟨hdigits, hne, -, -, -⟩ := hall a (by simp)
        cases a with
        | nil => exact absurd rfl hne
        | cons e s =>
          refine ⟨e, s ++ 46 :: join 46 [b, c, d] ++ r, rfl, ?_⟩
          have hdigit := hdigits e mem_cons_self
          rw [isDigit] at hdigit
          rw [isHexDigit, hdigit]
          rfl

/-- A colon and another group. -/
theorem ipLiteralLoop_colon {ip : IpGroups} (hh : h ∈ h16) (hcount : ip.count ≠ 8)
    {p : List UInt8} {c : UInt8} {s : List UInt8} (hp : p = c :: s) (hc : isHexDigit c = true) :
    ipLiteralLoop (fuel + 1) ip (h ++ 58 :: p) = ipLiteralLoop fuel (ip.add [hexValue h]) p := by
  have hcolon : c ≠ 58 := isHexDigit_ne hc (by decide)
  rw [ipLiteralLoop_group hh hcount (by decide) (by decide), if_pos rfl, hp, if_neg (by simpa using hcolon),
    if_pos (by simpa using hc)]

/-- **The groups up to the bracket.** -/
theorem ipLiteralLoop_last (hitems : Items t quad)
    {ip : IpGroups} (hcount : ip.count + (t.length + quadSize quad) ≤ 8)
    (hfuel : t.length + 1 < fuel) (r : List UInt8) :
    ipLiteralLoop fuel ip (join 58 (t ++ quadItem quad) ++ 93 :: r) =
      some (ip.add (itemsValue t quad), 93 :: r) := by
  have hend (fuel : ℕ) (ip : IpGroups) : ipLiteralLoop (fuel + 1) ip (93 :: r) = some (ip, 93 :: r) := rfl
  induction t generalizing ip fuel with
  | nil =>
    obtain ⟨fuel, rfl⟩ : ∃ f, fuel = f + 1 := ⟨fuel - 1, by omega⟩
    cases quad with
    | none =>
      rw [show itemsValue [] none = [] from rfl, add_nil]
      exact hend fuel ip
    | some os =>
      obtain ⟨hlength, hall⟩ := hitems.octets os rfl
      have hsix : ip.count + (0 + 2) ≤ 8 := hcount
      exact ipLiteralLoop_quad hlength hall (by omega) r
  | cons h t ih =>
    obtain ⟨hh, hall⟩ := forall_mem_cons.mp hitems.groups
    rw [length_cons] at hcount hfuel
    obtain ⟨fuel, rfl⟩ : ∃ f, fuel = f + 1 := ⟨fuel - 1, by omega⟩
    have hrest : Items t quad := ⟨hall, hitems.octets⟩
    have hvalue : ip.add (itemsValue (h :: t) quad) = (ip.add [hexValue h]).add (itemsValue t quad) := by
      rw [add_add]
      rfl
    by_cases hne : t ++ quadItem quad = []
    · obtain ⟨rfl, hquad⟩ := append_eq_nil_iff.mp hne
      cases quad with
      | some os => cases hquad
      | none =>
        obtain ⟨fuel, rfl⟩ : ∃ f, fuel = f + 1 := ⟨fuel - 1, by simp at hfuel; omega⟩
        show ipLiteralLoop (fuel + 1 + 1) ip (h ++ 93 :: r) = _
        rw [ipLiteralLoop_group hh (by omega) (by decide) (by decide), if_neg (by decide), if_neg (by decide),
          hend]
        rfl
    · obtain ⟨c, s, hp, hc⟩ := hrest.head hne (93 :: r)
      rw [cons_append, join_cons 58 h hne, append_assoc, cons_append,
        ipLiteralLoop_colon hh (by omega) hp hc,
        ih hrest (by rw [count_add, length_singleton]; omega) (by omega), hvalue]

/-- **The groups up to two colons.** -/
theorem ipLiteralLoop_compression (hne : t ≠ []) (hall : ∀ h ∈ t, h ∈ h16)
    {ip : IpGroups} (hcount : ip.count + t.length ≤ 8) (hip : ip.compression = false) (fuel : ℕ)
    (r : List UInt8) :
    ipLiteralLoop (fuel + t.length) ip (join 58 t ++ 58 :: 58 :: r) =
      ipLiteralLoop fuel { ip with groups := ip.groups ++ t.map hexValue, compression := true } r := by
  induction t generalizing ip with
  | nil => exact absurd rfl hne
  | cons h t ih =>
    obtain ⟨hh, hall⟩ := forall_mem_cons.mp hall
    rw [length_cons] at hcount
    have hadd : ip.add [hexValue h] = { ip with groups := ip.groups ++ [hexValue h] } := by
      unfold IpGroups.add
      rw [hip]
      rfl
    have hcount' := count_add ip [hexValue h]
    rw [hadd, length_singleton] at hcount'
    cases t with
    | nil =>
      show ipLiteralLoop (fuel + 1) ip (h ++ 58 :: 58 :: r) = _
      rw [ipLiteralLoop_group hh (by omega) (by decide) (by decide), if_pos rfl,
        if_pos (head?_cons ..), hadd, if_neg (by rw [hip]; nofun)]
      rfl
    | cons h' t =>
      have hitems : Items (h' :: t) none := ⟨hall, nofun⟩
      obtain ⟨c, s, hp, hc⟩ := hitems.head (cons_ne_nil _ _) (58 :: 58 :: r)
      rw [show (h' :: t) ++ quadItem none = h' :: t from append_nil _] at hp
      rw [length_cons, ← Nat.add_assoc, join_cons 58 h (cons_ne_nil h' t), append_assoc,
        cons_append, ipLiteralLoop_colon hh (by omega) hp hc, hadd,
        @ih (cons_ne_nil _ _) hall { ip with groups := ip.groups ++ [hexValue h] } (by omega) hip]
      dsimp only
      rw [append_assoc]
      rfl

/-- **The loop reads nothing else.** -/
theorem ipLiteralLoop_sound {ip ip' : IpGroups} {p q : List UInt8} (hcount : ip.count ≤ 8)
    (h : ipLiteralLoop fuel ip p = some (ip', q)) :
    ∃ t quad, Items t quad ∧
      ((p = join 58 (t ++ quadItem quad) ++ q ∧ ip' = ip.add (itemsValue t quad)) ∨
        (ip.compression = false ∧ ∃ head, head ≠ [] ∧ (∀ h ∈ head, h ∈ h16) ∧
          p = join 58 head ++ 58 :: 58 :: (join 58 (t ++ quadItem quad) ++ q) ∧
          ip' = IpGroups.add (itemsValue t quad)
            { ip with groups := ip.groups ++ head.map hexValue, compression := true })) := by
  induction fuel generalizing ip p with
  | zero => cases h
  | succ fuel ih =>
    rw [ipLiteralLoop] at h
    split at h
    · cases h
      exact ⟨[], none, ⟨forall_mem_nil _, by rintro _ ⟨⟩⟩, .inl ⟨rfl, (add_nil _).symm⟩⟩
    split at h
    · cases h
    next hnotEight =>
    dsimp only at h
    split at h
    · cases h
    next hdigits =>
    rw [Bool.or_eq_true, decide_eq_true_iff, decide_eq_true_iff, not_or] at hdigits
    have hgroup : p.takeWhile isHexDigit ∈ h16 :=
      mem_h16_iff.mpr ⟨hdigits.2, Nat.le_of_not_gt hdigits.1, fun c hc => mem_takeWhile_imp hc⟩
    have hp := @takeWhile_append_dropWhile _ isHexDigit p
    generalize p.takeWhile isHexDigit = g at h hgroup hp
    split at h
    · -- four octets
      split at h
      · next o₀ o₁ o₂ o₃ p' hquad =>
        split at h
        · cases h
        · cases h
          obtain ⟨os, hlength, hall, hvalues, hp', -⟩ := parseQuad_iff.mp hquad
          obtain ⟨_, _, _, _, hvalues', hvalue⟩ := quadValue_eq hlength hall
          rw [← hvalues] at hvalues'
          cases hvalues'
          refine ⟨[], some os, ⟨forall_mem_nil _, ?_⟩, .inl ⟨hp', ?_⟩⟩
          · intro os' hos'
            obtain rfl := Option.some.inj hos'
            exact ⟨hlength, hall⟩
          · rw [itemsValue, hvalue]
            rfl
      · cases h
    rw [hexadecimal_eq (mem_h16_iff.mp hgroup).2.2] at h
    have hnext : (ip.add [hexValue g]).count ≤ 8 := by
      rw [count_add, length_singleton]
      omega
    have hadd (hip : ip.compression = false) :
        ip.add [hexValue g] = { ip with groups := ip.groups ++ [hexValue g] } := by
      unfold IpGroups.add
      rw [hip]
      rfl
    have hcompression : (ip.add [hexValue g]).compression = ip.compression := by
      unfold IpGroups.add
      split <;> rfl
    split at h
    · cases h
    next c rest hdrop =>
    rw [hdrop] at hp
    split at h
    · next hc =>
      subst hc
      split at h
      · -- two colons
        next hcolon =>
        obtain ⟨rest', rfl⟩ := head?_eq_some_iff.mp hcolon
        split at h
        · cases h
        next hfalse =>
        rw [hcompression, Bool.not_eq_true] at hfalse
        obtain ⟨t, quad, hitems, ⟨hrest, hvalue⟩ | ⟨htrue, -⟩⟩ := @ih
          { ip.add [hexValue g] with compression := true } _ hnext h
        · refine ⟨t, quad, hitems, .inr ⟨hfalse, [g], cons_ne_nil _ _, ?_, ?_, ?_⟩⟩
          · exact forall_mem_singleton.mpr hgroup
          · rw [← hp, ← hrest]
            rfl
          · rw [hvalue, hadd hfalse]
            rfl
        · cases htrue
      split at h
      · -- a colon and another group
        next hhex =>
        obtain ⟨t, quad, hitems, ⟨hrest, hvalue⟩ | ⟨hfalse, head, hne, hall, hrest, hvalue⟩⟩ := ih hnext h
        · have hne : t ++ quadItem quad ≠ [] := by
            intro hnil
            rw [hnil, show join 58 [] ++ q = q from rfl] at hrest
            rw [hrest, (ipLiteralLoop_suffix h).2] at hhex
            revert hhex
            decide
          refine ⟨g :: t, quad, ⟨forall_mem_cons.mpr ⟨hgroup, hitems.groups⟩, hitems.octets⟩, .inl ⟨?_, ?_⟩⟩
          · rw [cons_append, join_cons 58 g hne, append_assoc, cons_append, ← hrest, hp]
          · rw [hvalue, add_add]
            rfl
        · rw [hcompression] at hfalse
          refine ⟨t, quad, hitems, .inr ⟨hfalse, g :: head, cons_ne_nil _ _, ?_, ?_, ?_⟩⟩
          · exact forall_mem_cons.mpr ⟨hgroup, hall⟩
          · rw [join_cons 58 g hne, append_assoc, cons_append, ← hrest, hp]
          · rw [hvalue, hadd hfalse]
            simp
      · cases h
    split at h
    · cases h
    next hbracket =>
    obtain rfl : c = 93 := not_not.mp hbracket
    cases fuel with
    | zero => cases h
    | succ fuel =>
      rw [ipLiteralLoop, if_pos (head?_cons ..)] at h
      cases h
      exact ⟨[g], none, ⟨forall_mem_singleton.mpr hgroup, by rintro _ ⟨⟩⟩, .inl ⟨hp.symm, rfl⟩⟩

/-- The bytes of an address. -/
theorem mem_text {a : Ipv6} (ha : a.Valid (octetText false)) {c : UInt8} (hc : c ∈ a.text) :
    isHexDigit c = true ∨ c = 58 ∨ c = 46 := by
  have hitems {t : List (List UInt8)} {quad : Option (List (List UInt8))} (h : Items t quad)
      (hc : c ∈ join 58 (t ++ quadItem quad)) : isHexDigit c = true ∨ c = 58 ∨ c = 46 := by
    obtain rfl | ⟨x, hx, hmem⟩ := mem_join hc
    · exact .inr (.inl rfl)
    obtain hx | hx := mem_append.mp hx
    · exact .inl ((mem_h16_iff.mp (h.groups x hx)).2.2 c hmem)
    · cases quad with
      | none => cases hx
      | some os =>
        rw [mem_singleton.mp hx] at hmem
        obtain rfl | ⟨o, ho, hmem⟩ := mem_join hmem
        · exact .inr (.inr rfl)
        · have hdigit := ((h.octets os rfl).2 o ho).1 c hmem
          rw [isDigit] at hdigit
          rw [isHexDigit, hdigit]
          exact .inl rfl
  obtain ⟨head, tail, quad⟩ := a
  cases tail with
  | none => exact hitems ⟨ha.head, ha.quad⟩ hc
  | some t =>
    obtain hc | hc := mem_append.mp hc
    · exact @hitems head none ⟨ha.head, by rintro _ ⟨⟩⟩ (by rwa [quadItem, append_nil])
    obtain rfl | hc := mem_cons.mp hc
    · exact .inr (.inl rfl)
    obtain rfl | hc := mem_cons.mp hc
    · exact .inr (.inl rfl)
    · exact hitems ⟨ha.tail t rfl, ha.quad⟩ hc

/-! ### Whole literals -/

theorem value_some (head t : List (List UInt8)) (quad : Option (List (List UInt8))) :
    (Ipv6.mk head (some t) quad).value = head.map hexValue ++
      List.replicate (8 - (head.length + (t.length + quadSize quad))) 0 ++ itemsValue t quad := by
  simp [Ipv6.value, itemsValue, Nat.add_assoc]

/-- **What is accepted**: the addresses of the grammar, if an octet may have leading zeros. -/
theorem uriParseIpLiteral_iff_ipv6 {x : List UInt8} {out : List UriComponent} :
    uriParseIpLiteral (x ++ [93]) = some (out, []) ↔
      ∃ a : Ipv6, a.Valid (octetText false) ∧ a.text = x ∧ out = [.hostIPv6 a.value] := by
  constructor
  · intro h
    unfold uriParseIpLiteral at h
    split at h
    · cases h
    next ip p hbegin =>
    split at h
    · cases h
    next ip' q hloop =>
    have hq : q = [93] ∧ ip'.complete = true ∧
        out = [.hostIPv6 (ip'.groups ++ List.replicate (8 - ip'.count) 0 ++ ip'.tail)] := by
      obtain ⟨r, rfl⟩ := head?_eq_some_iff.mp (ipLiteralLoop_suffix hloop).2
      unfold ipLiteralEnd at h
      split at h
      · cases h
      · next hcomplete =>
        cases h
        exact ⟨rfl, by simpa using hcomplete, rfl⟩
    obtain ⟨rfl, hcomplete, rfl⟩ := hq
    have hstart : (ip = ⟨[], [], true⟩ ∧ x ++ [93] = 58 :: 58 :: p) ∨
        (ip = ⟨[], [], false⟩ ∧ x ++ [93] = p) := by
      unfold ipLiteralBegin at hbegin
      split at hbegin
      · next hcolon =>
        obtain ⟨y, hy⟩ := head?_eq_some_iff.mp hcolon
        rw [hy] at hbegin ⊢
        split at hbegin
        · cases hbegin
        · next hcolons =>
          obtain ⟨z, (rfl : y = 58 :: z)⟩ := head?_eq_some_iff.mp (not_not.mp hcolons)
          cases hbegin
          exact .inl ⟨rfl, rfl⟩
      · cases hbegin
        exact .inr ⟨rfl, rfl⟩
    obtain ⟨rfl, hx⟩ | ⟨rfl, rfl⟩ := hstart
    · obtain ⟨t, quad, hitems, ⟨rfl, rfl⟩ | ⟨hfalse, -⟩⟩ := ipLiteralLoop_sound (by decide) hloop
      · have hlength := hitems.length_value
        have hle : (itemsValue t quad).length ≤ 7 := by
          simpa [IpGroups.complete, IpGroups.add, IpGroups.count] using hcomplete
        refine ⟨⟨[], some t, quad⟩, ⟨forall_mem_nil _, ?_, hitems.octets, ?_⟩, ?_, ?_⟩
        · intro t' ht'
          obtain rfl := Option.some.inj ht'
          exact hitems.groups
        · show 0 + t.length + quadSize quad ≤ 7
          omega
        · exact (append_cancel_right hx).symm
        · simp [value_some, IpGroups.add, IpGroups.count, hlength]
      · cases hfalse
    · obtain ⟨t, quad, hitems, ⟨hx, rfl⟩ | ⟨-, head, hne, hall, hx, rfl⟩⟩ :=
        ipLiteralLoop_sound (by decide) hloop
      · have hlength := hitems.length_value
        have height : (itemsValue t quad).length = 8 := by
          simpa [IpGroups.complete, IpGroups.add] using hcomplete
        refine ⟨⟨t, none, quad⟩, ⟨hitems.groups, by rintro _ ⟨⟩, hitems.octets, ?_⟩, ?_, ?_⟩
        · show t.length + quadSize quad = 8
          omega
        · exact (append_cancel_right hx).symm
        · simp [Ipv6.value, IpGroups.add, IpGroups.count, height]
          rfl
      · have hlength := hitems.length_value
        have hle : head.length + (itemsValue t quad).length ≤ 7 := by
          simpa [IpGroups.complete, IpGroups.add, IpGroups.count] using hcomplete
        refine ⟨⟨head, some t, quad⟩, ⟨hall, ?_, hitems.octets, ?_⟩, ?_, ?_⟩
        · intro t' ht'
          obtain rfl := Option.some.inj ht'
          exact hitems.groups
        · show head.length + t.length + quadSize quad ≤ 7
          omega
        · rw [show join 58 head ++ 58 :: 58 :: (join 58 (t ++ quadItem quad) ++ [93]) =
            (Ipv6.mk head (some t) quad).text ++ [93] by simp [Ipv6.text]] at hx
          exact (append_cancel_right hx).symm
        · simp [value_some, IpGroups.add, IpGroups.count, hlength]
  · rintro ⟨⟨head, tail, quad⟩, ha, rfl, rfl⟩
    -- the loop may be given more fuel
    have hfuel (ip : IpGroups) (p : List UInt8) (n : ℕ) :
        ipLiteralLoop (p.length + 1) ip p = ipLiteralLoop (p.length + 10 + n) ip p :=
      ipLiteralLoop_fuel (by omega) (by omega)
    have hbegin {p : List UInt8} {c : UInt8} {s : List UInt8} (hp : p = c :: s) (hc : isHexDigit c = true) :
        ipLiteralBegin p = some (⟨[], [], false⟩, p) := by
      have hcolon : c ≠ 58 := isHexDigit_ne hc (by decide)
      rw [hp]
      exact if_neg (by simpa using hcolon)
    cases tail with
    | none =>
      have hitems : Items head quad := ⟨ha.head, ha.quad⟩
      have hsize : head.length + quadSize quad = 8 := ha.size
      have hlength := hitems.length_value
      have hne : head ++ quadItem quad ≠ [] := by
        intro hnil
        obtain ⟨rfl, hquad⟩ := append_eq_nil_iff.mp hnil
        cases quad with
        | none => cases hsize
        | some os => cases hquad
      obtain ⟨c, s, hp, hc⟩ := hitems.head hne [93]
      show uriParseIpLiteral (join 58 (head ++ quadItem quad) ++ [93]) = _
      rw [uriParseIpLiteral, hbegin hp hc]
      dsimp only
      rw [hfuel _ _ 0, ipLiteralLoop_last hitems (by simp [IpGroups.count, hsize]) (by omega)]
      rw [hsize] at hlength
      simp [ipLiteralEnd, IpGroups.complete, IpGroups.add, IpGroups.count, hlength, Ipv6.value]
      rfl
    | some t =>
      have hitems : Items t quad := ⟨ha.tail t rfl, ha.quad⟩
      have hsize : head.length + t.length + quadSize quad ≤ 7 := ha.size
      have hlength := hitems.length_value
      have hlast (fuel : ℕ) (hfuel : t.length + 1 < fuel) :
          ipLiteralLoop fuel ⟨head.map hexValue, [], true⟩ (join 58 (t ++ quadItem quad) ++ [93]) =
            some (⟨head.map hexValue, itemsValue t quad, true⟩, [93]) :=
        ipLiteralLoop_last hitems (by simp [IpGroups.count]; omega) hfuel []
      have hend : ipLiteralEnd ⟨head.map hexValue, itemsValue t quad, true⟩ [93] =
          some ([.hostIPv6 (Ipv6.mk head (some t) quad).value], []) := by
        have hle : head.length + (t.length + quadSize quad) ≤ 7 := by omega
        simp [value_some, ipLiteralEnd, IpGroups.complete, IpGroups.count, hlength, hle]
      have htext : (Ipv6.mk head (some t) quad).text ++ [93] =
          join 58 head ++ 58 :: 58 :: (join 58 (t ++ quadItem quad) ++ [93]) := by simp [Ipv6.text]
      rw [htext, uriParseIpLiteral]
      by_cases hne : head = []
      · subst hne
        rw [show ipLiteralBegin (join 58 [] ++ 58 :: 58 :: (join 58 (t ++ quadItem quad) ++ [93])) =
          some (⟨[], [], true⟩, join 58 (t ++ quadItem quad) ++ [93]) from rfl]
        dsimp only
        have hloop := hlast _ (show t.length + 1 < (join 58 (t ++ quadItem quad) ++ [93]).length + 10 + 0 by omega)
        rw [hfuel _ _ 0, show (⟨[], [], true⟩ : IpGroups) = ⟨[].map hexValue, [], true⟩ from rfl, hloop]
        exact hend
      · have hheads : Items head none := ⟨ha.head, by rintro _ ⟨⟩⟩
        obtain ⟨c, s, hp, hc⟩ := hheads.head (by simpa [quadItem] using hne)
          (58 :: 58 :: (join 58 (t ++ quadItem quad) ++ [93]))
        rw [show head ++ quadItem none = head from append_nil _] at hp
        rw [hbegin hp hc]
        dsimp only
        rw [hfuel _ _ head.length,
          ipLiteralLoop_compression hne ha.head (by simp [IpGroups.count]; omega) rfl]
        dsimp only
        rw [nil_append, hlast _ (by omega)]
        exact hend

end Uri

end Asyncio

import Asyncio.Grammar.Ipv6
import Asyncio.Uri.Spans
import Mathlib.Data.List.TakeWhile

/-!
# Hosts and ports

What follows the bracket of an IP literal has no part in it (`uriParseIpLiteral_append`), so the literals
are a language (`ipLiteral`). The addresses that `spanIsIpv4` accepts are those of the grammar, and the
ports that the loop accepts those of 16 bits.

## Main results

* `uriParseIpLiteral_iff` — what `uriParseIpLiteral` accepts
* `spanIsIpv4_iff` — what `spanIsIpv4` accepts
* `portLoop_eq` — what the loop over a port comes to
-/

namespace Asyncio

namespace Uri

open Computability Grammar Rfc3986 List Option

/-! ### Digits before a bracket -/

theorem takeWhile_bracket {p : UInt8 → Bool} (hp : p 93 = false) (y r : List UInt8) :
    (y ++ 93 :: r).takeWhile p = y.takeWhile p := by
  rw [takeWhile_append]
  split
  · next hall =>
    rw [takeWhile_cons_of_neg (by rw [hp]; nofun), append_nil]
    exact ((List.takeWhile_prefix p).eq_of_length hall).symm
  · rfl

theorem dropWhile_bracket {p : UInt8 → Bool} (hp : p 93 = false) (y r : List UInt8) :
    (y ++ 93 :: r).dropWhile p = y.dropWhile p ++ 93 :: r := by
  rw [dropWhile_append]
  split
  · next hempty =>
    rw [dropWhile_cons_of_neg (by rw [hp]; nofun), isEmpty_iff.mp hempty]
    rfl
  · rfl

theorem parseOctet_bracket (strict : Bool) (y r : List UInt8) :
    parseOctet strict (y ++ 93 :: r) =
      (parseOctet strict y).map fun v => (v.1, v.2 ++ 93 :: r) := by
  unfold parseOctet
  dsimp only
  rw [takeWhile_bracket (by decide), dropWhile_bracket (by decide)]
  split
  · rfl
  split
  · rfl
  split
  · rfl
  · rfl

theorem parseOctets_bracket (strict : Bool) (n : ℕ) (y r : List UInt8) :
    parseOctets strict n (y ++ 93 :: r) =
      (parseOctets strict n y).map fun v => (v.1, v.2 ++ 93 :: r) := by
  induction n generalizing y with
  | zero => rfl
  | succ n ih =>
    cases y with
    | nil => rfl
    | cons c y =>
      rw [cons_append, parseOctets, parseOctets]
      by_cases hc : c ≠ 46
      · rw [if_pos hc, if_pos hc]
        rfl
      rw [if_neg hc, if_neg hc, parseOctet_bracket]
      cases parseOctet strict y with
      | none => rfl
      | some v =>
        dsimp only [map_some]
        rw [ih]
        cases parseOctets strict n v.2 with
        | none => rfl
        | some w => rfl

/-- Four octets are octets after a dot each, but for the first dot. -/
theorem parseQuad_eq (strict : Bool) (p : List UInt8) : parseQuad strict p = parseOctets strict 4 (46 :: p) :=
  rfl

theorem parseQuad_bracket (strict : Bool) (y r : List UInt8) :
    parseQuad strict (y ++ 93 :: r) = (parseQuad strict y).map fun v => (v.1, v.2 ++ 93 :: r) := by
  rw [parseQuad_eq, ← cons_append, parseOctets_bracket, parseQuad_eq]

/-! ### Octets -/

variable {strict : Bool} {p rest : List UInt8} {n : ℕ}

theorem isDigit_cases {c : UInt8} (hc : isDigit c = true) : ∃ k : Fin 10, c = .ofNat (48 + k) := by
  revert hc
  refine forall_byte (P := fun c => isDigit c = true → ∃ k : Fin 10, c = .ofNat (48 + k)) ?_ c
  decide +kernel

/-- Up to three digits without a leading zero are how the grammar writes their number. -/
theorem decimalText_decimal {digits : List UInt8} (hdigits : ∀ c ∈ digits, isDigit c = true)
    (hne : digits ≠ []) (hlength : digits.length ≤ 3)
    (hzero : ¬(digits.length > 1 ∧ digits.head? = some 48)) : decimalText (decimal digits) = digits := by
  have hone : ∀ a : Fin 10, decimalText (decimal [.ofNat (48 + a)]) = [.ofNat (48 + a)] := by
    decide +kernel
  have htwo : ∀ a b : Fin 10, a ≠ 0 → decimalText (decimal [.ofNat (48 + a), .ofNat (48 + b)]) =
      [.ofNat (48 + a), .ofNat (48 + b)] := by decide +kernel
  have hthree : ∀ a b c : Fin 10, a ≠ 0 →
      decimalText (decimal [.ofNat (48 + a), .ofNat (48 + b), .ofNat (48 + c)]) =
        [.ofNat (48 + a), .ofNat (48 + b), .ofNat (48 + c)] := by decide +kernel
  match digits with
  | [] => exact absurd rfl hne
  | [x] =>
    obtain ⟨a, rfl⟩ := isDigit_cases (hdigits x (by simp))
    exact hone a
  | [x, y] =>
    obtain ⟨a, rfl⟩ := isDigit_cases (hdigits x (by simp))
    obtain ⟨b, rfl⟩ := isDigit_cases (hdigits y (by simp))
    refine htwo a b ?_
    rintro rfl
    exact hzero ⟨by simp, rfl⟩
  | [x, y, z] =>
    obtain ⟨a, rfl⟩ := isDigit_cases (hdigits x (by simp))
    obtain ⟨b, rfl⟩ := isDigit_cases (hdigits y (by simp))
    obtain ⟨c, rfl⟩ := isDigit_cases (hdigits z (by simp))
    refine hthree a b c ?_
    rintro rfl
    exact hzero ⟨by simp, rfl⟩
  | _ :: _ :: _ :: _ :: _ =>
    simp only [length_cons] at hlength
    omega

theorem decimalText_octet (hn : n ≤ 255) :
    (∀ c ∈ decimalText n, isDigit c = true) ∧ decimalText n ≠ [] ∧ (decimalText n).length ≤ 3 ∧
      ¬((decimalText n).length > 1 ∧ (decimalText n).head? = some 48) ∧ decimal (decimalText n) = n := by
  have hall : ∀ n : Fin 256, (decimalText n).all isDigit = true ∧ decimalText n ≠ [] ∧
      (decimalText n).length ≤ 3 ∧ ¬((decimalText n).length > 1 ∧ (decimalText n).head? = some 48) ∧
      decimal (decimalText n) = n := by decide +kernel
  obtain ⟨hdigits, hrest⟩ := hall ⟨n, by omega⟩
  exact ⟨all_eq_true.mp hdigits, hrest⟩

theorem takeWhile_dropWhile_append {p : UInt8 → Bool} {x rest : List UInt8} (hx : ∀ c ∈ x, p c = true)
    (hrest : ∀ c ∈ rest.head?, p c = false) :
    (x ++ rest).takeWhile p = x ∧ (x ++ rest).dropWhile p = rest := by
  rw [takeWhile_append_of_pos hx, dropWhile_append_of_pos hx]
  cases rest with
  | nil => exact ⟨append_nil x, rfl⟩
  | cons c rest =>
    have hc : ¬p c = true := by rw [hrest c rfl]; nofun
    rw [takeWhile_cons_of_neg hc, dropWhile_cons_of_neg hc]
    exact ⟨append_nil x, rfl⟩

theorem head_dropWhile {p : UInt8 → Bool} (x : List UInt8) : ∀ c ∈ (x.dropWhile p).head?, p c = false := by
  intro c hc
  have hnot := head?_dropWhile_not p x
  rw [mem_def.mp hc] at hnot
  exact hnot

/-- How an octet is written. -/
def octetText (strict : Bool) : Language UInt8 :=
  {x | (∀ c ∈ x, isDigit c = true) ∧ x ≠ [] ∧ x.length ≤ 3 ∧ decimal x ≤ 255 ∧
    (strict = true → ¬(x.length > 1 ∧ x.head? = some 48))}

/-- Strict octets are those of the grammar. -/
theorem octetText_true : octetText true = decOctet := by
  ext x
  constructor
  · rintro ⟨hdigits, hne, hlength, hvalue, hzero⟩
    exact ⟨decimal x, hvalue, (decimalText_decimal hdigits hne hlength (hzero rfl)).symm⟩
  · rintro ⟨n, hn, rfl⟩
    obtain ⟨hdigits, hne, hlength, hzero, hvalue⟩ := decimalText_octet hn
    exact ⟨hdigits, hne, hlength, by rw [hvalue]; exact hn, fun _ => hzero⟩

/-- **An octet.** -/
theorem parseOctet_iff :
    parseOctet strict p = some (n, rest) ↔
      ∃ o ∈ octetText strict, n = decimal o ∧ p = o ++ rest ∧ ∀ c ∈ rest.head?, isDigit c = false := by
  unfold parseOctet
  dsimp only
  constructor
  · intro h
    split at h
    · cases h
    split at h
    · cases h
    next hlength hvalue =>
    split at h
    · cases h
    next hzero =>
    cases h
    rw [Bool.or_eq_true, decide_eq_true_iff, decide_eq_true_iff, not_or] at hvalue
    refine ⟨p.takeWhile isDigit, ⟨fun c hc => mem_takeWhile_imp hc, hvalue.1,
      Nat.le_of_not_gt hlength, Nat.le_of_not_gt hvalue.2, ?_⟩, rfl,
      takeWhile_append_dropWhile.symm, head_dropWhile p⟩
    rintro rfl
    simpa using hzero
  · rintro ⟨o, ⟨hdigits, hne, hlength, hvalue, hzero⟩, rfl, rfl, hrest⟩
    obtain ⟨htake, hdrop⟩ := takeWhile_dropWhile_append hdigits hrest
    rw [htake, hdrop, if_neg (Nat.not_lt.mpr hlength), if_neg (by simp [hne, hvalue]), if_neg]
    intro hpadded
    rw [Bool.and_eq_true, Bool.and_eq_true, decide_eq_true_iff, beq_iff_eq] at hpadded
    exact hzero hpadded.1.1 ⟨hpadded.1.2, hpadded.2⟩

theorem head_dots (os : List (List UInt8)) (rest : List UInt8)
    (hrest : os = [] → ∀ c ∈ rest.head?, isDigit c = false) :
    ∀ c ∈ (os.flatMap (46 :: ·) ++ rest).head?, isDigit c = false := by
  cases os with
  | nil => exact hrest rfl
  | cons o os =>
    intro c hc
    cases hc
    rfl

theorem parseOctets_iff {k : ℕ} {ns : List ℕ} :
    (parseOctets strict k p = some (ns, rest) ∧ (k = 0 → ∀ c ∈ rest.head?, isDigit c = false)) ↔
      ∃ os : List (List UInt8), os.length = k ∧ (∀ o ∈ os, o ∈ octetText strict) ∧ ns = os.map decimal ∧
        p = os.flatMap (46 :: ·) ++ rest ∧ ∀ c ∈ rest.head?, isDigit c = false := by
  induction k generalizing p ns with
  | zero =>
    constructor
    · rintro ⟨h, hrest⟩
      cases h
      exact ⟨[], rfl, nofun, rfl, rfl, hrest rfl⟩
    · rintro ⟨os, hlength, -, rfl, rfl, hrest⟩
      rw [eq_nil_of_length_eq_zero hlength]
      exact ⟨rfl, fun _ => hrest⟩
  | succ k ih =>
    constructor
    · rintro ⟨h, -⟩
      cases p with
      | nil => cases h
      | cons c p =>
        rw [parseOctets] at h
        split at h
        · cases h
        next hc =>
        split at h
        · cases h
        next n p hoctet =>
        split at h
        · cases h
        next ns rest hoctets =>
        cases h
        obtain ⟨o, ho, rfl, rfl, hhead⟩ := parseOctet_iff.mp hoctet
        have hnone : k = 0 → ∀ c ∈ rest.head?, isDigit c = false := by
          rintro rfl
          cases hoctets
          exact hhead
        obtain ⟨os, hlength, hall, rfl, rfl, hrest⟩ := ih.mp ⟨hoctets, hnone⟩
        rw [not_not.mp hc]
        exact ⟨o :: os, congrArg (· + 1) hlength, forall_mem_cons.mpr ⟨ho, hall⟩, rfl, by simp, hrest⟩
    · rintro ⟨os, hlength, hall, rfl, rfl, hrest⟩
      refine ⟨?_, nofun⟩
      cases os with
      | nil => cases hlength
      | cons o os =>
        obtain ⟨ho, hall⟩ := forall_mem_cons.mp hall
        have hoctet := parseOctet_iff.mpr ⟨o, ho, rfl, rfl, head_dots os rest fun _ => hrest⟩
        have hoctets := (ih.mpr ⟨os, Nat.succ.inj hlength, hall, rfl, rfl, hrest⟩).1
        have htext : (o :: os).flatMap (46 :: ·) ++ rest = 46 :: (o ++ (os.flatMap (46 :: ·) ++ rest)) := by
          simp
        rw [htext, parseOctets, if_neg (not_not.mpr rfl), hoctet]
        dsimp only
        rw [hoctets]
        rfl

theorem join_dots (o : List UInt8) (os : List (List UInt8)) :
    join 46 (o :: os) = o ++ os.flatMap (46 :: ·) := by
  induction os generalizing o with
  | nil => exact (append_nil o).symm
  | cons o' os ih =>
    rw [join_cons 46 o (cons_ne_nil o' os), ih]
    rfl

/-- **Four octets.** -/
theorem parseQuad_iff {ns : List ℕ} :
    parseQuad strict p = some (ns, rest) ↔
      ∃ os : List (List UInt8), os.length = 4 ∧ (∀ o ∈ os, o ∈ octetText strict) ∧ ns = os.map decimal ∧
        p = join 46 os ++ rest ∧ ∀ c ∈ rest.head?, isDigit c = false := by
  have hoctets := @parseOctets_iff strict (46 :: p) rest 4 ns
  rw [and_iff_left nofun, ← parseQuad_eq] at hoctets
  rw [hoctets]
  refine exists_congr fun os => and_congr_right fun hlength => ?_
  cases os with
  | nil => cases hlength
  | cons o os => rw [join_dots, flatMap_cons, cons_append, cons_append, List.cons.injEq, eq_self, true_and]

theorem head?_bracket (y r : List UInt8) : (y ++ 93 :: r).head? = (y ++ [93]).head? := by
  cases y <;> rfl

/-! ### IP literals -/

/-- What is after the bracket has no part in the loop. -/
theorem ipLiteralLoop_append (fuel : ℕ) (ip : IpGroups) (y r : List UInt8) :
    ipLiteralLoop fuel ip (y ++ 93 :: r) =
      (ipLiteralLoop fuel ip (y ++ [93])).map fun v => (v.1, v.2 ++ r) := by
  have hsplit (z : List UInt8) : z ++ [93] ++ r = z ++ 93 :: r := by simp
  induction fuel generalizing ip y with
  | zero => rfl
  | succ fuel ih =>
    rw [ipLiteralLoop, ipLiteralLoop, head?_bracket]
    dsimp only
    rw [takeWhile_bracket (by decide), takeWhile_bracket (by decide), dropWhile_bracket (by decide),
      dropWhile_bracket (by decide), head?_bracket (y.dropWhile isHexDigit) r, parseQuad_bracket,
      parseQuad_bracket]
    split
    · simp
    split
    · rfl
    split
    · rfl
    split
    · cases parseQuad false y with
      | none => rfl
      | some v =>
        obtain ⟨octets, z⟩ := v
        dsimp only [map_some]
        match octets with
        | [] => rfl
        | [_] => rfl
        | [_, _] => rfl
        | [_, _, _] => rfl
        | _ :: _ :: _ :: _ :: _ :: _ => rfl
        | [o₀, o₁, o₂, o₃] =>
          dsimp only
          rw [head?_bracket z r]
          split
          · rfl
          · simp
    · cases y.dropWhile isHexDigit with
      | nil =>
        rw [nil_append, nil_append]
        dsimp only
        rw [if_neg (by decide), if_neg (by decide), if_neg (by decide), if_neg (by decide)]
        exact ih (ip.add [hexadecimal (y.takeWhile isHexDigit)]) []
      | cons c z =>
        rw [cons_append, cons_append]
        dsimp only
        rw [head?_bracket z r]
        split
        · cases z with
          | nil => rfl
          | cons d z =>
            rw [cons_append, cons_append, drop_succ_cons, drop_succ_cons, drop_zero, drop_zero]
            split
            · split
              · rfl
              · exact ih _ z
            split
            · exact ih _ (d :: z)
            · rfl
        split
        · rfl
        · exact ih _ (c :: z)

/-- The digits of a group are not empty, so the loop has less to read after them. -/
theorem length_dropWhile_lt {p : UInt8 → Bool} {x : List UInt8} (h : x.takeWhile p ≠ []) :
    (x.dropWhile p).length < x.length := by
  have hlength := congrArg List.length (takeWhile_append_dropWhile (p := p) (l := x))
  have hpos := length_pos_of_ne_nil h
  rw [length_append] at hlength
  omega

/-- More fuel than input changes nothing. -/
theorem ipLiteralLoop_fuel {fuel fuel' : ℕ} {ip : IpGroups} {p : List UInt8} (hfuel : p.length < fuel)
    (hfuel' : p.length < fuel') : ipLiteralLoop fuel ip p = ipLiteralLoop fuel' ip p := by
  induction fuel generalizing fuel' ip p with
  | zero => exact absurd hfuel (Nat.not_lt_zero _)
  | succ fuel ih =>
    cases fuel' with
    | zero => exact absurd hfuel' (Nat.not_lt_zero _)
    | succ fuel' =>
      rw [ipLiteralLoop, ipLiteralLoop]
      dsimp only
      split
      · rfl
      split
      · rfl
      split
      · rfl
      next hdigits =>
      split
      · rfl
      have hlt : (p.dropWhile isHexDigit).length < p.length :=
        length_dropWhile_lt fun hnil => hdigits (by rw [hnil]; rfl)
      cases hdrop : p.dropWhile isHexDigit with
      | nil => rfl
      | cons c rest =>
        rw [hdrop, length_cons] at hlt
        dsimp only
        split
        · split
          · split
            · rfl
            · exact ih (by rw [length_drop]; omega) (by rw [length_drop]; omega)
          split
          · exact ih (by omega) (by omega)
          · rfl
        split
        · rfl
        · exact ih (by rw [length_cons]; omega) (by rw [length_cons]; omega)

/-- The loop ends at a bracket. -/
theorem ipLiteralLoop_suffix {fuel : ℕ} {ip ip' : IpGroups} {p q : List UInt8}
    (h : ipLiteralLoop fuel ip p = some (ip', q)) : q <:+ p ∧ q.head? = some 93 := by
  induction fuel generalizing ip p with
  | zero => cases h
  | succ fuel ih =>
    rw [ipLiteralLoop] at h
    dsimp only at h
    split at h
    · next hbracket =>
      cases h
      exact ⟨suffix_refl _, hbracket⟩
    split at h
    · cases h
    split at h
    · cases h
    split at h
    · split at h
      · next o₀ o₁ o₂ o₃ rest hquad =>
        split at h
        · cases h
        · next hend =>
          cases h
          obtain ⟨os, -, -, -, rfl, -⟩ := parseQuad_iff.mp hquad
          refine ⟨suffix_append _ _, ?_⟩
          by_contra hne
          exact hend (by simp [hne])
      · cases h
    split at h
    · cases h
    next c rest hdrop =>
    have hsuffix : c :: rest <:+ p := hdrop ▸ dropWhile_suffix _
    have hrest := (suffix_cons c rest).trans hsuffix
    split at h
    · split at h
      · split at h
        · cases h
        · obtain ⟨hq, hhead⟩ := ih h
          exact ⟨(hq.trans (drop_suffix 1 rest)).trans hrest, hhead⟩
      split at h
      · obtain ⟨hq, hhead⟩ := ih h
        exact ⟨hq.trans hrest, hhead⟩
      · cases h
    split at h
    · cases h
    · obtain ⟨hq, hhead⟩ := ih h
      exact ⟨hq.trans hsuffix, hhead⟩

theorem ipLiteralBegin_cases (y : List UInt8) :
    (∀ r, ipLiteralBegin (y ++ 93 :: r) = none) ∨
      ∃ ip z, z <:+ y ∧ ∀ r, ipLiteralBegin (y ++ 93 :: r) = some (ip, z ++ 93 :: r) := by
  match y with
  | [] => exact .inr ⟨⟨[], [], false⟩, [], suffix_refl _, fun r => rfl⟩
  | [c] =>
    by_cases hc : c = 58
    · subst hc
      exact .inl fun r => rfl
    · exact .inr ⟨⟨[], [], false⟩, [c], suffix_refl _, fun r => if_neg (by simpa using hc)⟩
  | c :: d :: z =>
    by_cases hc : c = 58
    · subst hc
      by_cases hd : d = 58
      · subst hd
        exact .inr ⟨⟨[], [], true⟩, z, (suffix_cons _ _).trans (suffix_cons _ _), fun r => rfl⟩
      · exact .inl fun r => by simp [ipLiteralBegin, hd]
    · exact .inr ⟨⟨[], [], false⟩, c :: d :: z, suffix_refl _, fun r => if_neg (by simpa using hc)⟩

theorem ipLiteralEnd_append (ip : IpGroups) {q : List UInt8} (hq : q.head? = some 93) (r : List UInt8) :
    ipLiteralEnd ip (q ++ r) = (ipLiteralEnd ip q).map fun v => (v.1, v.2 ++ r) := by
  cases q with
  | nil => cases hq
  | cons c q =>
    unfold ipLiteralEnd
    split
    · rfl
    · rfl

/-- **What is after the bracket** has no part in the literal. -/
theorem uriParseIpLiteral_append (y r : List UInt8) :
    uriParseIpLiteral (y ++ 93 :: r) =
      (uriParseIpLiteral (y ++ [93])).map fun v => (v.1, v.2 ++ r) := by
  unfold uriParseIpLiteral
  obtain hnone | ⟨ip, z, -, hsome⟩ := ipLiteralBegin_cases y
  · rw [hnone r, hnone []]
    rfl
  · rw [hsome r, hsome []]
    dsimp only
    rw [ipLiteralLoop_append,
      @ipLiteralLoop_fuel _ ((z ++ [93]).length + 1) ip (z ++ [93]) (by simp) (Nat.lt_succ_self _)]
    cases hz : ipLiteralLoop ((z ++ [93]).length + 1) ip (z ++ [93]) with
    | none => rfl
    | some v => exact ipLiteralEnd_append v.1 (ipLiteralLoop_suffix hz).2 r

/-- The literals that `uriParseIpLiteral` accepts. -/
def ipLiteral : Language UInt8 := {x | ∃ out, uriParseIpLiteral (x ++ [93]) = some (out, [])}

/-- **What `uriParseIpLiteral` accepts.** -/
theorem uriParseIpLiteral_iff {q r : List UInt8} {out : List UriComponent} :
    uriParseIpLiteral q = some (out, r) ↔
      ∃ x, q = x ++ 93 :: r ∧ uriParseIpLiteral (x ++ [93]) = some (out, []) := by
  constructor
  · intro h
    have hsplit : ∃ x, q = x ++ 93 :: r := by
      unfold uriParseIpLiteral at h
      split at h
      · cases h
      next ip p hbegin =>
      split at h
      · cases h
      next ip' p' hloop =>
      obtain ⟨hsuffix, hhead⟩ := ipLiteralLoop_suffix hloop
      have hp : p <:+ q := by
        unfold ipLiteralBegin at hbegin
        split at hbegin
        · split at hbegin
          · cases hbegin
          · cases hbegin
            exact drop_suffix 2 q
        · cases hbegin
          exact suffix_refl q
      unfold ipLiteralEnd at h
      split at h
      · cases h
      · cases h
        cases p' with
        | nil => cases hhead
        | cons c p' =>
          obtain rfl : c = 93 := Option.some.inj hhead
          obtain ⟨x, hx⟩ := hsuffix.trans hp
          exact ⟨x, hx.symm⟩
    obtain ⟨x, rfl⟩ := hsplit
    refine ⟨x, rfl, ?_⟩
    rw [uriParseIpLiteral_append] at h
    obtain ⟨⟨out', rest⟩, hx, heq⟩ := map_eq_some_iff.mp h
    obtain ⟨rfl, hrest⟩ := Prod.mk.inj heq
    have hnil : rest = [] := append_left_eq_self.mp hrest
    rw [hnil] at hx
    exact hx
  · rintro ⟨x, rfl, hx⟩
    rw [uriParseIpLiteral_append, hx]
    rfl

/-! ### Addresses of four octets -/

/-- **What `spanIsIpv4` accepts**: the addresses of the grammar. -/
theorem spanIsIpv4_iff {x : List UInt8} {v : ℕ} : spanIsIpv4 x = some v ↔
    ∃ a b c d, a ≤ 255 ∧ b ≤ 255 ∧ c ≤ 255 ∧ d ≤ 255 ∧ x = dotted a b c d ∧
      v = a ||| b <<< 8 ||| c <<< 16 ||| d <<< 24 := by
  have hoctet {o : List UInt8} (ho : o ∈ octetText true) : decimal o ≤ 255 ∧ decimalText (decimal o) = o := by
    obtain ⟨hdigits, hne, hlength, hvalue, hzero⟩ := ho
    exact ⟨hvalue, decimalText_decimal hdigits hne hlength (hzero rfl)⟩
  constructor
  · intro h
    unfold spanIsIpv4 at h
    split at h
    · next a b c d hquad =>
      cases h
      obtain ⟨os, hlength, hall, hvalues, rfl, -⟩ := parseQuad_iff.mp hquad
      match os, hlength with
      | [o₀, o₁, o₂, o₃], _ =>
        cases hvalues
        obtain ⟨ha, ha'⟩ := hoctet (hall o₀ (by simp))
        obtain ⟨hb, hb'⟩ := hoctet (hall o₁ (by simp))
        obtain ⟨hc, hc'⟩ := hoctet (hall o₂ (by simp))
        obtain ⟨hd, hd'⟩ := hoctet (hall o₃ (by simp))
        refine ⟨_, _, _, _, ha, hb, hc, hd, ?_, rfl⟩
        rw [dotted, ha', hb', hc', hd', append_nil]
        rfl
    · cases h
  · rintro ⟨a, b, c, d, ha, hb, hc, hd, rfl, rfl⟩
    have hmem {n : ℕ} (hn : n ≤ 255) : decimalText n ∈ octetText true := by
      rw [octetText_true]
      exact ⟨n, hn, rfl⟩
    have hquad : parseQuad true (dotted a b c d) = some ([a, b, c, d], []) := by
      refine parseQuad_iff.mpr ⟨[decimalText a, decimalText b, decimalText c, decimalText d], rfl, ?_, ?_,
        (append_nil _).symm, nofun⟩
      · simp [hmem ha, hmem hb, hmem hc, hmem hd]
      · simp [(decimalText_octet ha).2.2.2.2, (decimalText_octet hb).2.2.2.2,
          (decimalText_octet hc).2.2.2.2, (decimalText_octet hd).2.2.2.2]
    rw [spanIsIpv4, hquad]

/-! ### The groups of a literal -/

/-- The groups so far. -/
structure IpGroups.Sound (ip : IpGroups) : Prop where
  groups : ∀ g ∈ ip.groups, g < 65536
  tail : ∀ g ∈ ip.tail, g < 65536
  tail_eq_nil : ip.compression = false → ip.tail = []

theorem IpGroups.Sound.add {ip : IpGroups} (h : ip.Sound) {values : List ℕ}
    (hvalues : ∀ g ∈ values, g < 65536) : (ip.add values).Sound := by
  unfold IpGroups.add
  split
  · next hip =>
    refine ⟨h.groups, forall_mem_append.mpr ⟨h.tail, hvalues⟩, fun hfalse => ?_⟩
    have hip' : ip.compression = false := hfalse
    rw [hip] at hip'
    cases hip'
  · exact ⟨forall_mem_append.mpr ⟨h.groups, hvalues⟩, h.tail, h.tail_eq_nil⟩

theorem IpGroups.Sound.compress {ip : IpGroups} (h : ip.Sound) :
    IpGroups.Sound { ip with compression := true } :=
  ⟨h.groups, h.tail, nofun⟩

theorem hexadecimal_step {c : UInt8} (hc : isHexDigit c = true) (n : ℕ) :
    n <<< 4 ||| decodeHex c = n * 16 + hexDigitValue c ∧ hexDigitValue c < 16 := by
  have hdigit : decodeHex c = hexDigitValue c ∧ hexDigitValue c < 16 := by
    revert hc
    refine forall_byte (P := fun c => isHexDigit c = true →
      decodeHex c = hexDigitValue c ∧ hexDigitValue c < 16) ?_ c
    decide +kernel
  rw [hdigit.1, ← Nat.shiftLeft_add_eq_or_of_lt hdigit.2, Nat.shiftLeft_eq]
  exact ⟨rfl, hdigit.2⟩

/-- The number of a group. -/
theorem hexadecimal_eq {x : List UInt8} (hx : ∀ c ∈ x, isHexDigit c = true) : hexadecimal x = hexValue x :=
  foldl_ext _ _ _ fun n _ hc => (hexadecimal_step (hx _ hc) n).1

theorem hexadecimal_lt {digits : List UInt8} (hlength : digits.length ≤ 4)
    (hdigits : ∀ c ∈ digits, isHexDigit c = true) : hexadecimal digits < 65536 := by
  have hfold (x : List UInt8) (hx : ∀ c ∈ x, isHexDigit c = true) (n k : ℕ) (hn : n < 16 ^ k) :
      x.foldl (fun n c => n * 16 + hexDigitValue c) n < 16 ^ (k + x.length) := by
    induction x generalizing n k with
    | nil => exact hn
    | cons c x ih =>
      obtain ⟨hc, hx⟩ := forall_mem_cons.mp hx
      have hlt := (hexadecimal_step hc n).2
      have hrest := ih hx (n * 16 + hexDigitValue c) (k + 1) (by rw [pow_succ]; omega)
      rwa [Nat.add_assoc, Nat.add_comm 1] at hrest
  have hlt := hfold digits hdigits 0 0 (by decide)
  rw [Nat.zero_add, ← hexValue, ← hexadecimal_eq hdigits] at hlt
  exact Nat.lt_of_lt_of_le hlt (Nat.pow_le_pow_right (by decide) hlength)

theorem sound_ipLiteralLoop {fuel : ℕ} {ip ip' : IpGroups} {p q : List UInt8} (hip : ip.Sound)
    (h : ipLiteralLoop fuel ip p = some (ip', q)) : ip'.Sound := by
  induction fuel generalizing ip p with
  | zero => cases h
  | succ fuel ih =>
    rw [ipLiteralLoop] at h
    split at h
    · cases h
      exact hip
    split at h
    · cases h
    dsimp only at h
    split at h
    · cases h
    next hdigits =>
    split at h
    · split at h
      · next o₀ o₁ o₂ o₃ p hquad =>
        split at h
        · cases h
        · cases h
          have hoctets : ∀ n ∈ [o₀, o₁, o₂, o₃], n ≤ 255 := by
            obtain ⟨os, -, hall, hvalues, -, -⟩ := parseQuad_iff.mp hquad
            rw [hvalues]
            exact forall_mem_map.mpr fun o ho => (hall o ho).2.2.2.1
          have hpair {a b : ℕ} (ha : a ≤ 255) (hb : b ≤ 255) : a <<< 8 ||| b < 65536 := by
            rw [← Nat.shiftLeft_add_eq_or_of_lt (show b < 2 ^ 8 by omega), Nat.shiftLeft_eq]
            omega
          refine hip.add (forall_mem_cons.mpr ⟨?_, forall_mem_cons.mpr ⟨?_, nofun⟩⟩)
          · exact hpair (hoctets o₀ (by simp)) (hoctets o₁ (by simp))
          · exact hpair (hoctets o₂ (by simp)) (hoctets o₃ (by simp))
      · cases h
    · rw [Bool.or_eq_true, decide_eq_true_iff, decide_eq_true_iff, not_or] at hdigits
      have hgroup := hexadecimal_lt (Nat.le_of_not_gt hdigits.1)
        (fun c hc => mem_takeWhile_imp (p := isHexDigit) (l := p) hc)
      have hadd := hip.add (forall_mem_singleton.mpr hgroup)
      split at h
      · cases h
      split at h
      · split at h
        · split at h
          · cases h
          · exact ih hadd.compress h
        split at h
        · exact ih hadd h
        · cases h
      split at h
      · cases h
      · exact ih hadd h

/-- **A literal is eight groups of 16 bits.** -/
theorem uriParseIpLiteral_groups {q r : List UInt8} {out : List UriComponent}
    (h : uriParseIpLiteral q = some (out, r)) :
    ∃ groups, out = [.hostIPv6 groups] ∧ groups.length = 8 ∧ ∀ g ∈ groups, g < 65536 := by
  unfold uriParseIpLiteral at h
  split at h
  · cases h
  next ip p hbegin =>
  split at h
  · cases h
  next ip' p' hloop =>
  have hsound : ip.Sound := by
    unfold ipLiteralBegin at hbegin
    split at hbegin
    · split at hbegin
      · cases hbegin
      · cases hbegin
        exact ⟨nofun, nofun, nofun⟩
    · cases hbegin
      exact ⟨nofun, nofun, fun _ => rfl⟩
  have hsound' := sound_ipLiteralLoop hsound hloop
  unfold ipLiteralEnd at h
  split at h
  · cases h
  next hcomplete =>
  cases h
  refine ⟨_, rfl, ?_, ?_⟩
  · rw [Bool.not_eq_true', Bool.not_eq_false] at hcomplete
    unfold IpGroups.complete at hcomplete
    simp only [length_append, length_replicate, IpGroups.count]
    split at hcomplete
    · have hle : ip'.groups.length + ip'.tail.length ≤ 7 := of_decide_eq_true hcomplete
      omega
    · next hcompression =>
      have htail := hsound'.tail_eq_nil (Bool.not_eq_true _ ▸ hcompression)
      have heq : ip'.groups.length = 8 := of_decide_eq_true hcomplete
      rw [htail, length_nil]
      omega
  · refine forall_mem_append.mpr ⟨forall_mem_append.mpr ⟨hsound'.groups, ?_⟩, hsound'.tail⟩
    intro g hg
    rw [eq_of_mem_replicate hg]
    decide

/-! ### Ports -/

/-- **What the loop over a port comes to.** -/
theorem portLoop_eq (hn : n ≤ 65535) (p : List UInt8) :
    portLoop n p =
      if (p.takeWhile isDigit).foldl (fun n c => n * 10 + (c.toNat - 48)) n ≤ 65535 then
        some ((p.takeWhile isDigit).foldl (fun n c => n * 10 + (c.toNat - 48)) n, p.dropWhile isDigit)
      else none := by
  have hgrows (x : List UInt8) (n : ℕ) : n ≤ x.foldl (fun n c => n * 10 + (c.toNat - 48)) n := by
    induction x generalizing n with
    | nil => exact Nat.le_refl n
    | cons c x ih =>
      have hle := ih (n * 10 + (c.toNat - 48))
      rw [foldl_cons]
      omega
  induction p generalizing n with
  | nil => exact (if_pos hn).symm
  | cons c p ih =>
    rw [portLoop]
    by_cases hc : isDigit c = true
    · rw [if_pos hc, takeWhile_cons_of_pos hc, dropWhile_cons_of_pos hc, foldl_cons]
      by_cases hbig : n * 10 + (c.toNat - 48) > 65535
      · have hle := hgrows (p.takeWhile isDigit) (n * 10 + (c.toNat - 48))
        rw [if_pos hbig, if_neg (by omega)]
      · rw [if_neg hbig]
        exact ih (Nat.le_of_not_gt hbig)
    · rw [if_neg hc, takeWhile_cons_of_neg hc, dropWhile_cons_of_neg hc]
      exact (if_pos hn).symm

end Uri

end Asyncio

import Asyncio.Uri.Parse
import Mathlib.Tactic.Ring

/-!
# Building a URI

`stdCb` keeps the components of a URI in a `URI`, and `URI::build` writes a text from it. The numbers in
this text are those of the URI (`xitoa_spec`, `hostText_ipv4`, `hexText_spec`).

The fields of a URI for its host are one value. `domain` of a URI without a name is not modelled.
-/

namespace Asyncio

namespace Uri

open Rfc3986 List

/-! ### The code -/

/-- `uriPctDecode` -/
def uriPctDecode : List UInt8 → List UInt8
  | [] => []
  | c :: p =>
    match p with
    | a :: b :: q =>
      if c = 37 && isHexDigit a && isHexDigit b then
        .ofNat (decodeHex a <<< 4 + decodeHex b) :: uriPctDecode q
      else c :: uriPctDecode (a :: b :: q)
    | p => c :: uriPctDecode p

/-- `uriPctEncode` -/
def uriPctEncode (extra : List UInt8) (bytes : List UInt8) : List UInt8 :=
  bytes.flatMap fun c =>
    if c ≠ 0 && (isUnreserved c || isSubDelims c || extra.contains c) then [c]
    else [37, encodeHex (c >>> 4), encodeHex (c &&& 0xF)]

/-- `hostType` with the value that it is about. -/
inductive Host
  | none
  | ipv4 (ipv4 : ℕ)
  | ipv6 (ipv6 : List ℕ)
  | dns (domain : List UInt8)
  deriving DecidableEq

/-- `URI` -/
structure URI where
  schema : List UInt8
  userInfo : List UInt8
  host : Host
  port : ℤ
  path : List UInt8
  query : List UInt8
  fragment : List UInt8
  deriving DecidableEq

/-- `stdCb` -/
def stdCb (data : URI) : UriComponent → URI
  | .schema raw => { data with schema := raw }
  | .userInfo raw => { data with userInfo := uriPctDecode raw }
  | .hostIPv4 u32 => { data with host := .ipv4 u32 }
  | .hostIPv6 ipv6 => { data with host := .ipv6 ipv6 }
  | .hostDNS raw => { data with host := .dns (uriPctDecode raw) }
  | .port i32 => { data with port := i32 }
  | .pathElement _ => data
  | .path raw => { data with path := uriPctDecode raw }
  | .queryElement _ _ => data
  | .query raw => { data with query := uriPctDecode raw }
  | .fragment raw => { data with fragment := uriPctDecode raw }

/-- What `uriParse` clears a `URI` to. -/
def URI.clear : URI := ⟨[], [], .none, -1, [], [], []⟩

/-- `uriParse` into a `URI`. -/
def uriParseData (uri : List UInt8) : Option URI := (uriParse uri).map (List.foldl stdCb URI.clear)

/-- The digits of `xitoa`, the last first. -/
def xitoaLoop : ℕ → ℕ → List UInt8
  | 0, _ => []
  | fuel + 1, n => .ofNat (48 + n % 10) :: if n / 10 = 0 then [] else xitoaLoop fuel (n / 10)

/-- `xitoa` of a value that is not negative. -/
def xitoa (n : ℕ) : List UInt8 := (xitoaLoop (n + 1) n).reverse

/-- The loop for `zeroStart` and `zeroSize`; `groups` are those from `i` on. -/
def zeroLoop : ℕ → ℕ → List ℕ → Option ℕ × ℕ → Option ℕ × ℕ
  | 0, _, _, zero => zero
  | _ + 1, _, [], zero => zero
  | fuel + 1, i, g :: groups, zero =>
    if g ≠ 0 then zeroLoop fuel (i + 1) groups zero
    else
      let size := ((g :: groups).takeWhile (· == 0)).length
      zeroLoop fuel (i + size) ((g :: groups).drop size) (if size > zero.2 then (some i, size) else zero)

/-- `digits` -/
def hexDigit (n : ℕ) : UInt8 := .ofNat (if n < 10 then 48 + n else 87 + n)

/-- The loop for `shift`, which is four times this. -/
def hexShift (g : ℕ) : ℕ → ℕ
  | 0 => 0
  | k + 1 => if (g >>> (4 * (k + 1))) &&& 0xF = 0 then hexShift g k else k + 1

/-- The loop over the digits of a group. -/
def hexDigits (g : ℕ) : ℕ → List UInt8
  | 0 => [hexDigit (g &&& 0xF)]
  | k + 1 => hexDigit ((g >>> (4 * (k + 1))) &&& 0xF) :: hexDigits g k

def hexText (g : ℕ) : List UInt8 := hexDigits g (hexShift g 3)

/-- The loop over the groups; `groups` are those from `i` on. -/
def ipv6Loop (zero : Option ℕ × ℕ) : ℕ → ℕ → List ℕ → List UInt8
  | 0, _, _ => []
  | _ + 1, _, [] => []
  | fuel + 1, i, g :: groups =>
    if zero.1 = some i then 58 :: 58 :: ipv6Loop zero fuel (i + zero.2) ((g :: groups).drop zero.2)
    else
      hexText g ++ (if groups ≠ [] && zero.1 ≠ some (i + 1) then [58] else []) ++
        ipv6Loop zero fuel (i + 1) groups

def ipv6Text (groups : List ℕ) : List UInt8 := ipv6Loop (zeroLoop 8 0 groups (none, 1)) 8 0 groups

/-- The part of `URI::build` that is about the host. -/
def hostText : Host → List UInt8
  | .none => []
  | .ipv4 ipv4 =>
    let x₁ := xitoa (ipv4 >>> 0 &&& 0xFF)
    let x₂ := xitoa (ipv4 >>> 8 &&& 0xFF)
    let x₃ := xitoa (ipv4 >>> 16 &&& 0xFF)
    let x₄ := xitoa (ipv4 >>> 24)
    x₁ ++ 46 :: (x₂ ++ 46 :: (x₃ ++ 46 :: x₄))
  | .ipv6 ipv6 => 91 :: (ipv6Text ipv6 ++ [93])
  | .dns domain => uriPctEncode [] domain

/-- `URI::build` -/
def URI.build (uri : URI) : List UInt8 :=
  (if uri.schema ≠ [] then uri.schema ++ [58] else []) ++
  (if uri.userInfo ≠ [] || uri.host ≠ .none then [47, 47] else []) ++
  (if uri.userInfo ≠ [] then uriPctEncode [58] uri.userInfo ++ [64] else []) ++
  hostText uri.host ++
  (if uri.port ≥ 0 then 58 :: xitoa uri.port.toNat else []) ++
  (if uri.path ≠ [] then uriPctEncode [47, 58, 64] uri.path else []) ++
  (if uri.query ≠ [] then 63 :: uriPctEncode [47, 58, 64, 63] uri.query else []) ++
  (if uri.fragment ≠ [] then 35 :: uriPctEncode [47, 58, 64, 63] uri.fragment else [])

/-! ### Numbers -/

theorem xitoa_octet {n : ℕ} (hn : n ≤ 255) : xitoa n = decimalText n := by
  have hall : ∀ n : Fin 256, xitoa n = decimalText n := by decide +kernel
  exact hall ⟨n, by omega⟩

theorem digit_toNat {k : ℕ} (hk : k < 10) :
    isDigit (.ofNat (48 + k)) = true ∧ (UInt8.ofNat (48 + k)).toNat - 48 = k := by
  have hall : ∀ k : Fin 10, isDigit (.ofNat (48 + k)) = true ∧ (UInt8.ofNat (48 + k)).toNat - 48 = k := by
    decide
  exact hall ⟨k, hk⟩

theorem xitoaLoop_spec {fuel n : ℕ} (hfuel : n < fuel) :
    (∀ c ∈ xitoaLoop fuel n, isDigit c = true) ∧ value (xitoaLoop fuel n).reverse = n := by
  induction fuel generalizing n with
  | zero => omega
  | succ fuel ih =>
    obtain ⟨hdigit, hvalue⟩ := digit_toNat (show n % 10 < 10 by omega)
    rw [xitoaLoop]
    split
    · refine ⟨?_, ?_⟩
      · intro c hc
        rw [mem_singleton.mp hc]
        exact hdigit
      · show 0 * 10 + ((UInt8.ofNat (48 + n % 10)).toNat - 48) = n
        omega
    · obtain ⟨hall, hrest⟩ := @ih (n / 10) (by omega)
      refine ⟨forall_mem_cons.mpr ⟨hdigit, hall⟩, ?_⟩
      rw [reverse_cons, value, foldl_append]
      rw [value] at hrest
      rw [hrest]
      show n / 10 * 10 + ((UInt8.ofNat (48 + n % 10)).toNat - 48) = n
      omega

theorem xitoa_spec (n : ℕ) : (∀ c ∈ xitoa n, isDigit c = true) ∧ xitoa n ≠ [] ∧ value (xitoa n) = n := by
  obtain ⟨hall, hvalue⟩ := xitoaLoop_spec (Nat.lt_succ_self n)
  refine ⟨fun c hc => hall c (mem_reverse.mp hc), ?_, hvalue⟩
  rw [xitoa, xitoaLoop, reverse_cons]
  exact append_ne_nil_of_right_ne_nil _ (cons_ne_nil _ _)

/-- **The text of an address of four octets.** -/
theorem hostText_ipv4 {a b c d : ℕ} (ha : a ≤ 255) (hb : b ≤ 255) (hc : c ≤ 255) (hd : d ≤ 255) :
    hostText (.ipv4 (a + 2 ^ 8 * b + 2 ^ 16 * c + 2 ^ 24 * d)) = dotted a b c d := by
  have hoctet (v k : ℕ) : v >>> k &&& 0xFF = v / 2 ^ k % 256 := by
    rw [Nat.shiftRight_eq_div_pow]
    exact Nat.and_two_pow_sub_one_eq_mod _ 8
  rw [hostText, hoctet, hoctet, hoctet, Nat.shiftRight_eq_div_pow, dotted]
  generalize hv : a + 2 ^ 8 * b + 2 ^ 16 * c + 2 ^ 24 * d = v
  rw [show v / 2 ^ 0 % 256 = a by omega, show v / 2 ^ 8 % 256 = b by omega,
    show v / 2 ^ 16 % 256 = c by omega, show v / 2 ^ 24 = d by omega, xitoa_octet ha, xitoa_octet hb,
    xitoa_octet hc, xitoa_octet hd]

/-! ### Groups of IPv6 addresses -/

theorem hexDigit_spec {n : ℕ} (hn : n < 16) : isHexDigit (hexDigit n) = true ∧ decodeHex (hexDigit n) = n := by
  have hall : ∀ n : Fin 16, isHexDigit (hexDigit n) = true ∧ decodeHex (hexDigit n) = n := by decide
  exact hall ⟨n, hn⟩

theorem and_fifteen (n : ℕ) : n &&& 0xF = n % 16 := Nat.and_two_pow_sub_one_eq_mod n 4

theorem shift_digit (g k : ℕ) : g >>> (4 * k) &&& 0xF = g / 16 ^ k % 16 := by
  rw [and_fifteen, Nat.shiftRight_eq_div_pow, Nat.pow_mul]

theorem hexDigits_spec (g k : ℕ) :
    (∀ c ∈ hexDigits g k, isHexDigit c = true) ∧ (hexDigits g k).length = k + 1 ∧
      ∀ n, (hexDigits g k).foldl (fun n c => n <<< 4 ||| decodeHex c) n =
        n * 16 ^ (k + 1) + g % 16 ^ (k + 1) := by
  have hpush (n d : ℕ) (hd : d < 16) : n <<< 4 ||| decodeHex (hexDigit d) = n * 16 + d := by
    rw [(hexDigit_spec hd).2, ← Nat.shiftLeft_add_eq_or_of_lt hd, Nat.shiftLeft_eq]
  induction k with
  | zero =>
    have hlt : g % 16 < 16 := Nat.mod_lt _ (by decide)
    rw [hexDigits, and_fifteen]
    refine ⟨?_, rfl, fun n => ?_⟩
    · intro c hc
      rw [mem_singleton.mp hc]
      exact (hexDigit_spec hlt).1
    · rw [foldl_cons, hpush _ _ hlt]
      simp
  | succ k ih =>
    obtain ⟨hall, hlength, hfold⟩ := ih
    have hlt : g / 16 ^ (k + 1) % 16 < 16 := Nat.mod_lt _ (by decide)
    rw [hexDigits, shift_digit]
    refine ⟨forall_mem_cons.mpr ⟨(hexDigit_spec hlt).1, hall⟩, congrArg (· + 1) hlength, fun n => ?_⟩
    rw [foldl_cons, hpush _ _ hlt, hfold, @Nat.mod_pow_succ g 16 (k + 1)]
    ring

theorem lt_hexShift {g k : ℕ} (hg : g < 16 ^ (k + 1)) : hexShift g k ≤ k ∧ g < 16 ^ (hexShift g k + 1) := by
  induction k with
  | zero => exact ⟨le_rfl, hg⟩
  | succ k ih =>
    rw [hexShift, shift_digit]
    split
    · next hzero =>
      have hdiv : g / 16 ^ (k + 1) < 16 := Nat.div_lt_of_lt_mul (by rwa [pow_succ] at hg)
      rw [Nat.mod_eq_of_lt hdiv] at hzero
      have hlt : g < 16 ^ (k + 1) := (Nat.div_eq_zero_iff_lt (Nat.pow_pos (by decide))).mp hzero
      obtain ⟨hle, hshift⟩ := ih hlt
      exact ⟨by omega, hshift⟩
    · exact ⟨le_rfl, hg⟩

/-- **The text of a group.** -/
theorem hexText_spec {g : ℕ} (hg : g < 65536) :
    (∀ c ∈ hexText g, isHexDigit c = true) ∧ hexText g ≠ [] ∧ (hexText g).length ≤ 4 ∧
      hexadecimal (hexText g) = g := by
  obtain ⟨hle, hlt⟩ := lt_hexShift (k := 3) hg
  obtain ⟨hall, hlength, hfold⟩ := hexDigits_spec g (hexShift g 3)
  refine ⟨hall, ?_, ?_, ?_⟩
  · refine ne_nil_of_length_pos ?_
    rw [hexText, hlength]
    omega
  · rw [hexText, hlength]
    omega
  · rw [hexadecimal, hexText, hfold, Nat.mod_eq_of_lt hlt]
    omega

end Uri

end Asyncio

import Asyncio.Wire.Bytes
import Asyncio.Xmstream

/-!
# Base64

`base64Encode` takes three bytes at a time, and what is left at the end. `base64` says what it is for: the
digits to the base 64 of a number of 24 bits, or of the 8 or 16 bits at the end with zeros behind them.

## Main results

* `base64Encode_eq` — the bits that are shifted together are these digits
* `length_base64Encode` — the buffer is as large as what is put there
-/

namespace Asyncio

namespace Smtp

open Wire

/-! ### Code -/

/-- `base64EncodeTable` -/
def base64EncodeTable : List UInt8 :=
  ascii "ABCDEFGHIJKLMNOPQRSTUVWXYZabcdefghijklmnopqrstuvwxyz0123456789+/"

/-- A place of `base64EncodeTable`. -/
def encodeTable (i : UInt8) : UInt8 := base64EncodeTable.getD i.toNat 0

/-- `base64getEncodeLength` -/
def base64getEncodeLength (len : ℕ) : ℕ :=
  let groups := len / 3 + if len % 3 ≠ 0 then 1 else 0
  if groups > (sizeMax - 1) / 4 then 0 else groups * 4 + 1

/-- `base64Encode`, without the NUL that it puts at the end. -/
def base64Encode : List UInt8 → List UInt8
  | a :: b :: c :: rest =>
    encodeTable ((a >>> 2) &&& 0x3f) :: encodeTable (((a &&& 0x3) <<< 4) ||| ((b &&& 0xf0) >>> 4)) ::
      encodeTable (((b &&& 0xf) <<< 2) ||| ((c &&& 0xc0) >>> 6)) :: encodeTable (c &&& 0x3f) ::
      base64Encode rest
  | [a, b] =>
    [encodeTable ((a >>> 2) &&& 0x3f), encodeTable (((a &&& 0x3) <<< 4) ||| ((b &&& 0xf0) >>> 4)),
      encodeTable ((b &&& 0xf) <<< 2), 61]
  | [a] => [encodeTable ((a >>> 2) &&& 0x3f), encodeTable ((a &&& 0x3) <<< 4), 61, 61]
  | [] => []

/-! ### Digits -/

/-- A digit to the base 64. -/
def base64Digit (n : ℕ) : UInt8 :=
  if n < 26 then .ofNat (65 + n)
  else if n < 52 then .ofNat (97 + (n - 26))
  else if n < 62 then .ofNat (48 + (n - 52))
  else if n = 62 then 43
  else 47

/-- The encoding: four digits for three bytes, the last ones of the end left out and replaced by `=`. -/
def base64 : List UInt8 → List UInt8
  | a :: b :: c :: rest =>
    let n := ofBE [a, b, c]
    base64Digit (n / 64 ^ 3) :: base64Digit (n / 64 ^ 2 % 64) :: base64Digit (n / 64 % 64) ::
      base64Digit (n % 64) :: base64 rest
  | [a, b] =>
    let n := ofBE [a, b] * 4
    [base64Digit (n / 64 ^ 2), base64Digit (n / 64 % 64), base64Digit (n % 64), 61]
  | [a] =>
    let n := ofBE [a] * 16
    [base64Digit (n / 64), base64Digit (n % 64), 61, 61]
  | [] => []

theorem encodeTable_eq {i : UInt8} {n : ℕ} (h : i.toNat = n) (hn : n < 64) : encodeTable i = base64Digit n := by
  have hall : ∀ n < 64, base64EncodeTable.getD n 0 = base64Digit n := by decide +kernel
  rw [encodeTable, h, hall n hn]

/-- Bits put behind others. -/
theorem toNat_join {x y : UInt8} {k n l : ℕ} (hx : x.toNat = n <<< k) (hy : y.toNat = l) (hl : l < 2 ^ k) :
    (x ||| y).toNat = n * 2 ^ k + l := by
  rw [UInt8.toNat_or, hx, hy, ← Nat.shiftLeft_add_eq_or_of_lt hl, Nat.shiftLeft_eq]

/-! The parts of a byte that are joined. -/

theorem and_shiftRight {n k j : ℕ} (hn : n < 2 ^ k * 2 ^ j) : n >>> k &&& (2 ^ j - 1) = n / 2 ^ k := by
  rw [Nat.and_two_pow_sub_one_eq_mod, Nat.shiftRight_eq_div_pow, Nat.mod_eq_of_lt (Nat.div_lt_of_lt_mul hn)]

theorem and_shiftLeft {n k j m : ℕ} (hm : 2 ^ j * 2 ^ k ≤ m) :
    (n &&& (2 ^ j - 1)) <<< k % m = (n % 2 ^ j) <<< k := by
  have hlow : n % 2 ^ j < 2 ^ j := Nat.mod_lt _ (Nat.two_pow_pos j)
  rw [Nat.and_two_pow_sub_one_eq_mod, Nat.shiftLeft_eq]
  exact Nat.mod_eq_of_lt ((Nat.mul_lt_mul_of_pos_right hlow (Nat.two_pow_pos k)).trans_le hm)

theorem toNat_high_six (a : UInt8) : ((a >>> 2) &&& 0x3f).toNat = a.toNat / 4 :=
  and_shiftRight (k := 2) (j := 6) a.toNat_lt

theorem toNat_low_two (a : UInt8) : ((a &&& 0x3) <<< 4).toNat = (a.toNat % 4) <<< 4 :=
  and_shiftLeft (j := 2) (k := 4) (by decide)

theorem toNat_high_four (b : UInt8) : ((b &&& 0xf0) >>> 4).toNat = b.toNat / 16 :=
  Nat.shiftRight_and_distrib.trans (and_shiftRight (k := 4) (j := 4) b.toNat_lt)

theorem toNat_low_four (b : UInt8) : ((b &&& 0xf) <<< 2).toNat = (b.toNat % 16) <<< 2 :=
  and_shiftLeft (j := 4) (k := 2) (by decide)

theorem toNat_high_two (c : UInt8) : ((c &&& 0xc0) >>> 6).toNat = c.toNat / 64 :=
  Nat.shiftRight_and_distrib.trans (and_shiftRight (k := 6) (j := 2) c.toNat_lt)

theorem toNat_low_six (c : UInt8) : (c &&& 0x3f).toNat = c.toNat % 64 :=
  Nat.and_two_pow_sub_one_eq_mod c.toNat 6

/-- **The bits that are shifted together are the digits.** -/
theorem base64Encode_eq (bytes : List UInt8) : base64Encode bytes = base64 bytes := by
  have hnat (c : UInt8) : c.toNat < 256 := c.toNat_lt
  fun_induction base64Encode bytes with
  | case1 a b c rest ih =>
    have ha := hnat a
    have hb := hnat b
    have hc := hnat c
    have hn : ofBE [a, b, c] = (a.toNat * 256 + b.toNat) * 256 + c.toNat := by simp [ofBE]
    have hfirst : a.toNat / 4 = ofBE [a, b, c] / 64 ^ 3 := by omega
    have hsecond : a.toNat % 4 * 2 ^ 4 + b.toNat / 16 = ofBE [a, b, c] / 64 ^ 2 % 64 := by omega
    have hthird : b.toNat % 16 * 2 ^ 2 + c.toNat / 64 = ofBE [a, b, c] / 64 % 64 := by omega
    have hfourth : c.toNat % 64 = ofBE [a, b, c] % 64 := by omega
    rw [base64, ih, encodeTable_eq (toNat_high_six a) (by omega),
      encodeTable_eq (toNat_join (toNat_low_two a) (toNat_high_four b) (by omega)) (by omega),
      encodeTable_eq (toNat_join (toNat_low_four b) (toNat_high_two c) (by omega)) (by omega),
      encodeTable_eq (toNat_low_six c) (by omega), hfirst, hsecond, hthird, hfourth]
  | case2 a b =>
    have ha := hnat a
    have hb := hnat b
    have hn : ofBE [a, b] = a.toNat * 256 + b.toNat := by simp [ofBE]
    have hfirst : a.toNat / 4 = ofBE [a, b] * 4 / 64 ^ 2 := by omega
    have hsecond : a.toNat % 4 * 2 ^ 4 + b.toNat / 16 = ofBE [a, b] * 4 / 64 % 64 := by omega
    have hthird : (b.toNat % 16) <<< 2 = ofBE [a, b] * 4 % 64 := by
      rw [Nat.shiftLeft_eq]
      omega
    rw [base64, encodeTable_eq (toNat_high_six a) (by omega),
      encodeTable_eq (toNat_join (toNat_low_two a) (toNat_high_four b) (by omega)) (by omega),
      encodeTable_eq (toNat_low_four b) (by omega), hfirst, hsecond, hthird]
  | case3 a =>
    have ha := hnat a
    have hn : ofBE [a] = a.toNat := by simp [ofBE]
    have hfirst : a.toNat / 4 = ofBE [a] * 16 / 64 := by omega
    have hsecond : (a.toNat % 4) <<< 4 = ofBE [a] * 16 % 64 := by
      rw [Nat.shiftLeft_eq]
      omega
    rw [base64, encodeTable_eq (toNat_high_six a) (by omega), encodeTable_eq (toNat_low_two a) (by omega),
      hfirst, hsecond]
  | case4 => rfl

/-! ### The text -/

theorem length_base64 (bytes : List UInt8) : (base64 bytes).length = (bytes.length + 2) / 3 * 4 := by
  fun_induction base64 bytes with
  | case1 a b c rest n ih =>
    simp only [List.length_cons, ih]
    omega
  | case2 => simp
  | case3 => simp
  | case4 => rfl

/-- `base64getEncodeLength` is the length of the text and its NUL, for bytes that are somewhere in memory. -/
theorem base64getEncodeLength_eq {bytes : List UInt8} (h : bytes.length ≤ ptrdiffMax) :
    base64getEncodeLength bytes.length = (base64 bytes).length + 1 := by
  have hgroups : (bytes.length / 3 + if bytes.length % 3 ≠ 0 then 1 else 0) = (bytes.length + 2) / 3 := by
    split <;> omega
  rw [ptrdiffMax] at h
  rw [base64getEncodeLength, hgroups, length_base64, sizeMax, if_neg (by omega)]

/-- No digit is a control character. -/
theorem base64Digit_ge (n : ℕ) : 43 ≤ base64Digit n := by
  by_cases hn : n < 63
  · have hall : ∀ n < 63, 43 ≤ base64Digit n := by decide +kernel
    exact hall n hn
  · rw [base64Digit, if_neg (by omega), if_neg (by omega), if_neg (by omega), if_neg (by omega)]
    decide

theorem base64_ge (bytes : List UInt8) : ∀ c ∈ base64 bytes, 43 ≤ c := by
  have hpad : (43 : UInt8) ≤ 61 := by decide
  fun_induction base64 bytes with
  | case1 a b c rest n ih => simpa [base64Digit_ge] using ih
  | case2 => simp [base64Digit_ge, hpad]
  | case3 => simp [base64Digit_ge, hpad]
  | case4 => nofun

end Smtp

end Asyncio

import Asyncio.Grammar.Ipv6

/-!
# The canonical text of an IPv6 address

RFC 5952, section 4: the groups are in lower-case hexadecimal without leading zeros, and the longest run
of two or more groups that are zero, the first of several, is written as two colons.
-/

namespace Rfc5952

open List

/-- A group, without leading zeros. -/
def groupText (g : ℕ) : List UInt8 := (Nat.toDigits 16 g).map fun c => .ofNat c.toNat

/-- Groups, with colons between them. -/
def groupsText (groups : List ℕ) : List UInt8 := Rfc3986.join 58 (groups.map groupText)

/-- The `n` groups from `s` on are zero. -/
def Zeros (groups : List ℕ) (s n : ℕ) : Prop := ∀ k, s ≤ k → k < s + n → groups[k]? = some 0

/-- The canonical text of an address. -/
inductive Text (groups : List ℕ) : List UInt8 → Prop
  | compressed {s n : ℕ} (htwo : 2 ≤ n) (hrun : Zeros groups s n)
    (hlongest : ∀ s' n', Zeros groups s' n' → n' ≤ n ∧ (n' = n → s ≤ s')) :
    Text groups (groupsText (groups.take s) ++ 58 :: 58 :: groupsText (groups.drop (s + n)))
  | plain (hnone : ∀ s n, Zeros groups s n → n ≤ 1) : Text groups (groupsText groups)

theorem Zeros.add_le {groups : List ℕ} {s n : ℕ} (h : Zeros groups s n) (hn : 0 < n) :
    s + n ≤ groups.length := by
  have hlast := h (s + n - 1) (by omega) (by omega)
  have hlt := (List.getElem?_eq_some_iff.mp hlast).1
  omega

/-- An address with a run of zeros. -/
theorem Zeros.eq_append {groups : List ℕ} {s n : ℕ} (h : Zeros groups s n) (hle : s + n ≤ groups.length) :
    groups = groups.take s ++ (List.replicate n 0 ++ groups.drop (s + n)) := by
  refine ext_getElem? fun k => ?_
  have htake : (groups.take s).length = s := by
    rw [length_take]
    omega
  by_cases hk : k < s
  · rw [getElem?_append_left (by omega), getElem?_take_of_lt hk]
  rw [getElem?_append_right (by omega), htake]
  by_cases hk' : k < s + n
  · rw [h k (by omega) hk', getElem?_append_left (by rw [length_replicate]; omega),
      getElem?_replicate_of_lt (by omega)]
  · rw [getElem?_append_right (by rw [length_replicate]; omega), length_replicate,
      getElem?_drop]
    congr 1
    omega

end Rfc5952

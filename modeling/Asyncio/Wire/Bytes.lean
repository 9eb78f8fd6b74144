import Mathlib.Data.List.Induction
import Mathlib.Data.Nat.Notation
import Mathlib.Tactic.Ring

/-!
# Bytes in memory and numbers on the wire

A memory is a function from offsets to bytes. What a program stores in one piece it reads back in one
piece (`slice_fill`), also out of a larger one (`slice_add`).

Numbers are written in a fixed width, the most significant byte first (`toBE`) or last (`toLE`). A host
keeps its words in memory in one of the two orders.
-/

namespace Wire

open List

/-! ### Memory -/

/-- A piece of memory, by offset. -/
abbrev Memory := ℕ → UInt8

/-- `memcpy` into `m` at `offset`. -/
def fill (m : Memory) (offset : ℕ) (bytes : List UInt8) : Memory := fun i =>
  if i < offset then m i else (bytes[i - offset]?).getD (m i)

/-- The `n` bytes at `offset`. -/
def slice (m : Memory) (offset n : ℕ) : List UInt8 := (List.range n).map fun i => m (offset + i)

@[simp] theorem length_slice (m : Memory) (offset n : ℕ) : (slice m offset n).length = n := by
  simp [slice]

@[simp] theorem fill_nil (m : Memory) (offset : ℕ) : fill m offset [] = m := by
  funext i
  simp [fill]

theorem getElem?_slice (m : Memory) (offset : ℕ) {n i : ℕ} (h : i < n) :
    (slice m offset n)[i]? = some (m (offset + i)) := by
  simp [slice, h]

variable {m : Memory}

theorem fill_of_lt {offset i : ℕ} (h : i < offset) (bytes : List UInt8) :
    fill m offset bytes i = m i := by
  rw [fill, if_pos h]

variable {bytes : List UInt8}

theorem fill_add {offset i : ℕ} {b : UInt8}
    (h : bytes[i]? = some b) : fill m offset bytes (offset + i) = b := by
  rw [fill, if_neg (by omega), Nat.add_sub_cancel_left, h]
  rfl

theorem slice_fill (m : Memory) (offset : ℕ) (bytes : List UInt8) :
    slice (fill m offset bytes) offset bytes.length = bytes := by
  apply ext_getElem?
  intro i
  by_cases hi : i < bytes.length
  · have hget : bytes[i]? = some bytes[i] := getElem?_eq_getElem hi
    simp [slice, hi, fill_add hget]
  · simp [slice, hi]

theorem slice_fill_of_le {offset n start : ℕ} (h : start + n ≤ offset)
    (bytes : List UInt8) : slice (fill m offset bytes) start n = slice m start n := by
  apply map_congr_left
  intro i hi
  rw [mem_range] at hi
  exact fill_of_lt (by omega) bytes

theorem slice_fill_of_ge {offset n start : ℕ}
    (h : offset + bytes.length ≤ start) : slice (fill m offset bytes) start n = slice m start n := by
  apply map_congr_left
  intro i hi
  have hnone : bytes[start + i - offset]? = none := getElem?_eq_none (by omega)
  rw [fill, if_neg (by omega), hnone]
  rfl

theorem slice_add (m : Memory) (offset n k : ℕ) :
    slice m offset (n + k) = slice m offset n ++ slice m (offset + n) k := by
  simp [slice, range_add, Nat.add_assoc, Function.comp_def]

/-- A piece of a memory that begins later. -/
theorem slice_shift (m : Memory) (base offset n : ℕ) :
    slice (fun i => m (base + i)) offset n = slice m (base + offset) n := by
  simp [slice, Nat.add_assoc]

/-- A piece of a piece. -/
theorem take_drop_slice {offset i n k : ℕ} (h : i + n ≤ k) :
    ((slice m offset k).drop i).take n = slice m (offset + i) n := by
  obtain ⟨r, rfl⟩ := Nat.exists_eq_add_of_le h
  rw [slice_add, slice_add, append_assoc]
  rw [drop_left' (length_slice m offset i), take_left' (length_slice m (offset + i) n)]

/-- The end of a piece. -/
theorem eq_slice_of_suffix {offset n : ℕ}
    (h : bytes <:+ slice m offset n) : bytes = slice m (offset + (n - bytes.length)) bytes.length := by
  have hle := h.length_le
  rw [length_slice] at hle
  rw [← @take_drop_slice m offset (n - bytes.length) bytes.length n (by omega),
    take_of_length_le (by rw [length_drop, length_slice]; omega)]
  have hdrop := suffix_iff_eq_drop.mp h
  rwa [length_slice] at hdrop

variable {xs ys : List UInt8}

/-- What is stored over something is there instead of it. -/
theorem fill_overwrite (m : Memory) (offset : ℕ) (h : xs.length ≤ ys.length) :
    fill (fill m offset xs) offset ys = fill m offset ys := by
  funext i
  by_cases hbefore : i < offset
  · rw [fill_of_lt hbefore, fill_of_lt hbefore, fill_of_lt hbefore]
  rw [fill, if_neg hbefore, fill, if_neg hbefore, fill, if_neg hbefore]
  cases hy : ys[i - offset]? with
  | some y => rfl
  | none =>
    have hnone : xs[i - offset]? = none := by
      rw [getElem?_eq_none_iff] at hy ⊢
      omega
    rw [hnone]
    rfl

/-- Two pieces stored one after the other are stored at once. -/
theorem fill_fill (m : Memory) (offset : ℕ) (xs ys : List UInt8) :
    fill (fill m offset xs) (offset + xs.length) ys = fill m offset (xs ++ ys) := by
  funext i
  by_cases hbefore : i < offset
  · rw [fill_of_lt (by omega), fill_of_lt hbefore, fill_of_lt hbefore]
  by_cases hfirst : i < offset + xs.length
  · rw [fill_of_lt hfirst, fill, fill, if_neg hbefore, if_neg hbefore,
      getElem?_append_left (by omega)]
  · have hnone : xs[i - offset]? = none := getElem?_eq_none (by omega)
    rw [fill, if_neg hfirst, fill, if_neg hbefore, fill, if_neg hbefore, hnone,
      getElem?_append_right (by omega), Nat.sub_sub]
    rfl

/-- Two pieces stored one after the other are one piece. -/
theorem slice_fill_append {start n : ℕ} (bytes : List UInt8) :
    slice (fill m (start + n) bytes) start (n + bytes.length) = slice m start n ++ bytes := by
  rw [slice_add, slice_fill_of_le le_rfl, slice_fill]

/-- A piece stored after the first `n` bytes. -/
theorem slice_zero_fill (m : Memory) (n : ℕ) (bytes : List UInt8) :
    slice (fill m n bytes) 0 (n + bytes.length) = slice m 0 n ++ bytes := by
  have happend := @slice_fill_append m 0 n bytes
  rwa [Nat.zero_add] at happend

/-- Two lists stand one after the other where each of them stands. -/
theorem slice_append_iff {offset : ℕ} :
    slice m offset (xs ++ ys).length = xs ++ ys ↔
      slice m offset xs.length = xs ∧ slice m (offset + xs.length) ys.length = ys := by
  rw [length_append, slice_add]
  constructor
  · intro heq
    exact append_inj heq (length_slice m offset xs.length)
  · rintro ⟨hxs, hys⟩
    rw [hxs, hys]

/-- A piece that is two lists, one after the other. -/
theorem slice_of_eq_append {offset n : ℕ} (h : slice m offset n = xs ++ ys):
    slice m offset xs.length = xs ∧ slice m (offset + xs.length) (n - xs.length) = ys := by
  have hlength := congrArg List.length h
  rw [length_slice, length_append] at hlength
  rw [hlength, ← length_append, slice_append_iff] at h
  rw [hlength, Nat.add_sub_cancel_left]
  exact h

theorem slice_one (m : Memory) (offset : ℕ) : slice m offset 1 = [m offset] := rfl

theorem slice_cons_iff {offset : ℕ} {c : UInt8} {xs : List UInt8} :
    slice m offset (c :: xs).length = c :: xs ↔ m offset = c ∧ slice m (offset + 1) xs.length = xs := by
  rw [← singleton_append, slice_append_iff, length_singleton, slice_one, singleton_inj]

theorem prefix_slice_iff {offset n : ℕ} {xs : List UInt8} :
    xs <+: slice m offset n ↔ xs.length ≤ n ∧ slice m offset xs.length = xs := by
  constructor
  · intro hprefix
    have hle := hprefix.length_le
    rw [length_slice] at hle
    obtain ⟨k, rfl⟩ := Nat.exists_eq_add_of_le hle
    rw [slice_add] at hprefix
    have htake := prefix_iff_eq_take.mp hprefix
    rw [take_left' (length_slice m offset xs.length)] at htake
    exact ⟨hle, htake.symm⟩
  · rintro ⟨hle, heq⟩
    obtain ⟨k, rfl⟩ := Nat.exists_eq_add_of_le hle
    rw [slice_add, heq]
    exact prefix_append _ _

/-- The bytes of a text in ASCII. -/
def ascii (text : String) : List UInt8 := text.toList.map fun c => .ofNat c.toNat

/-! ### Numbers -/

/-- The number with these bytes, the most significant first. -/
def ofBE (bytes : List UInt8) : ℕ := bytes.foldl (fun n b => n * 256 + b.toNat) 0

/-- The `w` bytes of `n`, the most significant first; what does not fit is dropped. -/
def toBE : ℕ → ℕ → List UInt8
  | 0, _ => []
  | w + 1, n => toBE w (n / 256) ++ [UInt8.ofNat n]

/-- The number with these bytes, the least significant first. -/
def ofLE (bytes : List UInt8) : ℕ := ofBE bytes.reverse

/-- The `w` bytes of `n`, the least significant first. -/
def toLE (w n : ℕ) : List UInt8 := (toBE w n).reverse

@[simp] theorem length_toBE (w n : ℕ) : (toBE w n).length = w := by
  induction w generalizing n with
  | zero => rfl
  | succ w ih => simp [toBE, ih]

@[simp] theorem length_toLE (w n : ℕ) : (toLE w n).length = w := by simp [toLE]

theorem ofBE_append_singleton (bytes : List UInt8) (b : UInt8) :
    ofBE (bytes ++ [b]) = ofBE bytes * 256 + b.toNat := by
  simp [ofBE]

theorem ofBE_toBE (w n : ℕ) : ofBE (toBE w n) = n % 256 ^ w := by
  induction w generalizing n with
  | zero => simp [toBE, ofBE, Nat.mod_one]
  | succ w ih =>
    have hbyte : (UInt8.ofNat n).toNat = n % 256 := UInt8.toNat_ofNat'
    rw [toBE, ofBE_append_singleton, ih, hbyte, pow_succ', Nat.mod_mul]
    ring

theorem ofBE_toBE_of_lt {w n : ℕ} (h : n < 256 ^ w) : ofBE (toBE w n) = n := by
  rw [ofBE_toBE, Nat.mod_eq_of_lt h]

theorem ofBE_lt (bytes : List UInt8) : ofBE bytes < 256 ^ bytes.length := by
  induction bytes using List.reverseRecOn with
  | nil => simp [ofBE]
  | append_singleton bytes b ih =>
    have hb : b.toNat < 256 := b.toNat_lt
    rw [ofBE_append_singleton, length_append, length_singleton, pow_succ]
    omega

theorem toBE_ofBE (bytes : List UInt8) : toBE bytes.length (ofBE bytes) = bytes := by
  induction bytes using List.reverseRecOn with
  | nil => rfl
  | append_singleton bytes b ih =>
    have hb : b.toNat < 256 := b.toNat_lt
    have hdiv : (ofBE bytes * 256 + b.toNat) / 256 = ofBE bytes := by omega
    have hlast : UInt8.ofNat (ofBE bytes * 256 + b.toNat) = b := by
      rw [← UInt8.toNat_inj, UInt8.toNat_ofNat']
      omega
    rw [ofBE_append_singleton, length_append, length_singleton, toBE, hdiv, ih, hlast]

/-! ### Words of a host -/

/-- The order in which a host keeps the bytes of a word. -/
inductive ByteOrder
  | little | big
  deriving DecidableEq

/-- The word of four bytes at `offset`. -/
def load (order : ByteOrder) (m : Memory) (offset : ℕ) : UInt32 :=
  match order with
  | .little => .ofNat (ofLE (slice m offset 4))
  | .big => .ofNat (ofBE (slice m offset 4))

/-- Store a word of four bytes at `offset`. -/
def store (order : ByteOrder) (m : Memory) (offset : ℕ) (word : UInt32) : Memory :=
  match order with
  | .little => fill m offset (toLE 4 word.toNat)
  | .big => fill m offset (toBE 4 word.toNat)

/-- The word with its bytes in the other order. -/
def swap (word : UInt32) : UInt32 := .ofNat (ofLE (toBE 4 word.toNat))

variable {order : ByteOrder} {m : Memory} {offset start n : ℕ} {word : UInt32}

/-- On a host of the other order, a word is stored in little order by swapping it. -/
theorem store_swap : store .big m offset (swap word) = fill m offset (toLE 4 word.toNat) := by
  have hback := toBE_ofBE (toBE 4 word.toNat).reverse
  have hlt := ofBE_lt (toBE 4 word.toNat).reverse
  rw [length_reverse, length_toBE] at hback hlt
  rw [store, swap, ofLE, UInt32.toNat_ofNat_of_lt' hlt, hback, toLE]

/-- On a host of little order, a word is stored in big order by swapping it. -/
theorem store_little_swap : store .little m offset (swap word) = fill m offset (toBE 4 word.toNat) := by
  have hback := toBE_ofBE (toBE 4 word.toNat).reverse
  have hlt := ofBE_lt (toBE 4 word.toNat).reverse
  rw [length_reverse, length_toBE] at hback hlt
  rw [store, swap, ofLE, UInt32.toNat_ofNat_of_lt' hlt, toLE, hback, reverse_reverse]

/-- On a host of little order, a word in big order is loaded by swapping it. -/
theorem swap_load_little : swap (load .little m offset) = .ofNat (ofBE (slice m offset 4)) := by
  have hback := toBE_ofBE (slice m offset 4).reverse
  have hlt := ofBE_lt (slice m offset 4).reverse
  rw [length_reverse, length_slice] at hback hlt
  rw [load, swap, ofLE, ofLE, UInt32.toNat_ofNat_of_lt' hlt, hback, reverse_reverse]

end Wire

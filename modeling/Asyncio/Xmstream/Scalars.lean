import Asyncio.Xmstream.Stream

/-!
# Numbers in a stream

`read<T>`, `write<T>` and their variants in big order, for the types the protocols use. A number is copied as
it is in the memory of the host, so what is written depends on the byte order of the host until it was
brought in an order.

A stream of less than `2 ^ 63` bytes is read without a wrap of its cursor (`Readable`), and one that is at
its end grows by what is written, as long as there is memory (`Holds.write`).

## Main results

* `Readable.seek_of_le`, `Readable.read32be` — reading what is left
* `Holds.write`, `Holds.write32be` — writing at the end
-/

namespace Asyncio

namespace Xmstream

open Wire

/-! ### Code -/

def xhtobe (order : ByteOrder) (value : UInt32) : UInt32 :=
  if order = .big then value else swap value

def xbetoh (order : ByteOrder) (value : UInt32) : UInt32 :=
  if order = .big then value else swap value

namespace Stream

/-- `read<uint8_t>` -/
def read8 (s : Stream) : UInt8 × Stream :=
  match s.seek 1 1 with
  | (none, s') => (0, s')
  | (some p, s') => ((s.m.map fun m => m p).getD 0, s')

/-- `read<uint32_t>` -/
def read32 (s : Stream) (order : ByteOrder) : UInt32 × Stream :=
  match s.seek 4 1 with
  | (none, s') => (0, s')
  | (some p, s') => ((s.m.map fun m => load order m p).getD 0, s')

/-- `readbe<uint32_t>` -/
def read32be (s : Stream) (order : ByteOrder) : UInt32 × Stream :=
  let (value, s') := s.read32 order
  (xbetoh order value, s')

/-- `write<uint8_t>` -/
def write8 (s : Stream) (value : UInt8) (alloc : Alloc) : Bool × Stream :=
  s.write (fun _ => value) 1 alloc

/-- `writebe<uint32_t>` -/
def write32be (s : Stream) (order : ByteOrder) (value : UInt32) (alloc : Alloc) : Bool × Stream :=
  s.write (store order (fun _ => 0) 0 (xhtobe order value)) 4 alloc

end Stream

/-! ### Reading -/

/-- A stream over `m` that is short enough for its cursor. -/
structure Readable (s : Stream) (m : Memory) : Prop where
  offset_le : s.offset ≤ s.size
  memory : s.m = some m
  size_lt : s.size < 2 ^ 63

/-- What is left to read. -/
def Stream.rest (s : Stream) (m : Memory) : List UInt8 := slice m s.offset s.remaining

variable {s : Stream} {m : Memory}

theorem readable_ofData (m : Memory) {n : UInt64} (hn : n.toNat < 2 ^ 63) :
    Readable (ofData (some m) n) m :=
  ⟨Nat.zero_le _, rfl, hn⟩

@[simp] theorem Stream.length_rest (s : Stream) (m : Memory) : (s.rest m).length = s.remaining :=
  length_slice _ _ _

/-- A stream whose cursor was moved on. -/
def Stream.advance (s : Stream) (n : ℕ) : Stream := { s with offset := s.offset + n }

@[simp] theorem Stream.advance_advance (s : Stream) (n k : ℕ) :
    (s.advance n).advance k = s.advance (n + k) := by
  rw [Stream.advance, Stream.advance, Stream.advance, Nat.add_assoc]

@[simp] theorem Stream.remaining_advance (s : Stream) (n : ℕ) :
    (s.advance n).remaining = s.remaining - n :=
  (Nat.sub_sub _ _ _).symm

theorem Readable.advance (hs : Readable s m) {n : ℕ} (hn : n ≤ s.remaining) : Readable (s.advance n) m := by
  have hle := hs.offset_le
  rw [Stream.remaining] at hn
  exact ⟨show s.offset + n ≤ s.size by omega, hs.memory, hs.size_lt⟩

theorem Stream.rest_advance (s : Stream) (m : Memory) (n : ℕ) :
    (s.advance n).rest m = (s.rest m).drop n := by
  rw [Stream.rest, Stream.rest, Stream.remaining_advance]
  by_cases hn : n ≤ s.remaining
  · obtain ⟨k, hk⟩ := Nat.exists_eq_add_of_le hn
    rw [hk, Nat.add_sub_cancel_left, slice_add, List.drop_left' (length_slice _ _ _)]
    rfl
  · rw [List.drop_eq_nil_of_le (by rw [length_slice]; omega), Nat.sub_eq_zero_of_le (by omega)]
    rfl

/-- `seek` forward over what is left. -/
theorem Readable.seek_of_le (hs : Readable s m) {width : UInt64} {num : Int64} {n : ℕ}
    (hn : width.toNat * num.toUInt64.toNat = n) (hle : n ≤ s.remaining) :
    s.seek width num = (some s.offset, s.advance n) := by
  have hlt := hs.size_lt
  have hoffset := hs.offset_le
  rw [Stream.remaining] at hle
  rw [Stream.seek, hn, Stream.pointer, hs.memory,
    Nat.mod_eq_of_lt (show s.offset + n < 2 ^ 64 by omega), if_neg (by omega), if_neg (by omega)]
  rw [Stream.advance, hs.memory]
  rfl

/-- `seek` forward over more than what is left. -/
theorem Stream.seek_of_lt {width : UInt64} {num : Int64} {n : ℕ}
    (hn : width.toNat * num.toUInt64.toNat = n) (hlt : s.remaining < n) (hwrap : s.offset + n < 2 ^ 63) :
    (s.seek width num).1 = none := by
  rw [Stream.remaining] at hlt
  rw [Stream.seek, hn, Nat.mod_eq_of_lt (show s.offset + n < 2 ^ 64 by omega), if_neg (by omega),
    if_pos (by omega)]

/-- The distance of a `seek` over bytes. -/
theorem one_mul_toInt64 (n : UInt64) : (1 : UInt64).toNat * n.toInt64.toUInt64.toNat = n.toNat := by
  rw [UInt64.toUInt64_toInt64]
  exact Nat.one_mul _

/-- `seek` over bytes that are left. -/
theorem Readable.seek_bytes (hs : Readable s m) {n : UInt64} (hle : n.toNat ≤ s.remaining) :
    s.seek 1 n.toInt64 = (some s.offset, s.advance n.toNat) :=
  hs.seek_of_le (one_mul_toInt64 n) hle

theorem Readable.read8 (hs : Readable s m) (h : 1 ≤ s.remaining) :
    s.read8 = (m s.offset, s.advance 1) := by
  rw [Stream.read8, hs.seek_of_le (show _ = 1 by decide) h, hs.memory]
  rfl

/-- The word that is next, in big order, whatever the order of the host is. -/
theorem Readable.read32be (hs : Readable s m) (order : ByteOrder) (h : 4 ≤ s.remaining) :
    s.read32be order = (.ofNat (ofBE (slice m s.offset 4)), s.advance 4) := by
  rw [Stream.read32be, Stream.read32, hs.seek_of_le (show _ = 4 by decide) h, hs.memory]
  cases order with
  | little => exact Prod.ext swap_load_little rfl
  | big => rfl

/-! ### Writing -/

/-- A stream at its end, with `bytes` in it. -/
structure Holds (s : Stream) (bytes : List UInt8) : Prop where
  valid : s.Valid
  end_eq : s.offset = s.size
  contents : (s.m.map fun m => slice m 0 s.size).getD [] = bytes

variable {bytes : List UInt8}

/-- A stream that was written to has as many bytes as it says. -/
theorem Holds.length_eq (hs : Holds s bytes) : bytes.length = s.size := by
  rw [← hs.contents]
  cases hm : s.m with
  | none =>
    have hmsize := hs.valid.null hm
    have hle := hs.valid.size_le
    rw [Option.map_none, Option.getD_none, List.length_nil]
    omega
  | some m => exact length_slice _ _ _

variable {alloc : Alloc}

/-- `reserve` at the end, with room or memory for it: the bytes before are as they were. -/
theorem Holds.reserve (hs : Holds s bytes) {size : UInt64}
    (halloc : ∀ n, (alloc n).isSome) (hroom : bytes.length + size.toNat ≤ ptrdiffMax)
    (hm : s.m.isSome ∨ size.toNat ≠ 0) :
    ∃ s' m, s.reserve size alloc = (some s.size, s') ∧ s'.Valid ∧ s'.offset = s'.size ∧
      s'.size = s.size + size.toNat ∧ s'.m = some m ∧ slice m 0 s.size = bytes := by
  have hend := hs.end_eq
  have hvalid := hs.valid.reserve size alloc
  have hcontents := hs.contents
  rw [hs.length_eq] at hroom
  have hcases : ∃ s' m, s.reserve size alloc = (some s.size, s') ∧ s'.offset = s'.size ∧
      s'.size = s.size + size.toNat ∧ s'.m = some m ∧ slice m 0 s.size = bytes := by
    rw [Stream.reserve, hend]
    dsimp only
    rw [if_neg (by omega)]
    by_cases hgrow : s.size + size.toNat > s.msize
    · rw [if_pos hgrow]
      obtain ⟨block, hblock⟩ := Option.isSome_iff_exists.mp (halloc
        (if s.msize ≠ 0 ∧ s.msize ≤ ptrdiffMax / 2 ∧ s.msize * 2 > s.size + size.toNat then s.msize * 2
          else s.size + size.toNat))
      rw [hblock]
      cases hmemory : s.m with
      | none =>
        have hsize : s.size = 0 := by
          have := hs.valid.null hmemory
          have := hs.valid.size_le
          omega
        rw [hmemory] at hcontents
        refine ⟨_, block, rfl, rfl, rfl, rfl, ?_⟩
        rw [hsize]
        exact hcontents
      | some m =>
        rw [hmemory] at hcontents
        refine ⟨_, _, rfl, rfl, rfl, rfl, ?_⟩
        have hfill := slice_fill block 0 (slice m 0 s.size)
        rw [length_slice] at hfill
        exact hfill.trans hcontents
    · rw [if_neg hgrow]
      cases hmemory : s.m with
      | none =>
        have hmsize := hs.valid.null hmemory
        have hsize : size.toNat ≠ 0 := hm.resolve_left (by rw [hmemory]; exact Bool.false_ne_true)
        omega
      | some m =>
        rw [hmemory] at hcontents
        exact ⟨_, m, rfl, by dsimp only; split <;> omega, by dsimp only; split <;> omega, rfl,
          hcontents⟩
  obtain ⟨s', m, heq, hrest⟩ := hcases
  rw [heq] at hvalid
  exact ⟨s', m, heq, hvalid, hrest⟩

/-- Writing at the end. -/
theorem Holds.write {bytes data : List UInt8} (hs : Holds s bytes) {source : Memory} {size : UInt64}
    (hdata : slice source 0 size.toNat = data) (halloc : ∀ n, (alloc n).isSome)
    (hroom : bytes.length + data.length ≤ ptrdiffMax) (hm : s.m.isSome ∨ data ≠ []) :
    ∃ s', s.write source size alloc = (true, s') ∧ Holds s' (bytes ++ data) ∧ s'.m.isSome := by
  have hlength : data.length = size.toNat := by rw [← hdata, length_slice]
  have hne : s.m.isSome ∨ size.toNat ≠ 0 :=
    hm.imp_right fun h hzero => h (List.length_eq_zero_iff.mp (hlength.trans hzero))
  rw [hlength] at hroom
  obtain ⟨s', m, heq, hvalid, hend, hsize, hmemory, hold⟩ := hs.reserve halloc hroom hne
  refine ⟨{ s' with m := some (fill m s.size data) }, ?_, ⟨⟨hvalid.offset_le, hvalid.size_le, hvalid.msize_le,
    nofun⟩, hend, ?_⟩, rfl⟩
  · rw [Stream.write, heq]
    dsimp only
    rw [hmemory, hdata]
    rfl
  · show slice (fill m s.size data) 0 s'.size = bytes ++ data
    rw [hsize, ← hlength, slice_zero_fill, hold]

theorem Holds.write8 (hs : Holds s bytes) (value : UInt8)
    (halloc : ∀ n, (alloc n).isSome) (hroom : bytes.length + 1 ≤ ptrdiffMax) :
    ∃ s', s.write8 value alloc = (true, s') ∧ Holds s' (bytes ++ [value]) ∧ s'.m.isSome :=
  hs.write rfl halloc hroom (.inr (List.cons_ne_nil _ _))

/-- A word is written in big order, whatever the order of the host is. -/
theorem Holds.write32be (hs : Holds s bytes) (order : ByteOrder) (value : UInt32)
    (halloc : ∀ n, (alloc n).isSome) (hroom : bytes.length + 4 ≤ ptrdiffMax) :
    ∃ s', s.write32be order value alloc = (true, s') ∧ Holds s' (bytes ++ toBE 4 value.toNat) ∧
      s'.m.isSome := by
  have hstore : store order (fun _ => 0) 0 (xhtobe order value) =
      fill (fun _ => 0) 0 (toBE 4 value.toNat) := by
    cases order with
    | little => exact store_little_swap
    | big => rfl
  have hslice := slice_fill (fun _ => 0) 0 (toBE 4 value.toNat)
  rw [length_toBE] at hslice
  refine hs.write (by rw [hstore]; exact hslice) halloc (by rw [length_toBE]; exact hroom) (.inr ?_)
  intro hnil
  have hlength := congrArg List.length hnil
  rw [length_toBE] at hlength
  cases hlength

end Xmstream

end Asyncio

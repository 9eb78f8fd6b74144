import Asyncio.Wire.Bytes
import Asyncio.Xmstream

/-!
# Streams in memory

`xmstream` is a block of memory, the part of it that was written, and a cursor. The memory is the caller's
or its own. Writing moves it to a larger block when there is no room, if there is such a block.

Pointers into the block are offsets from its start. A sum of a pointer and a number is taken modulo
`2 ^ 64`, and the difference of two pointers is signed, as the machine has them. Memory goes on beyond a
block: what is copied from there is not part of the stream.

A stream that was captured or moved from is left out.

## Main results

* `Stream.Valid.run` — the cursor stays within what was written, and this within the block
* `reads_inside_iff` — when `read` and `seek` do what they are for
-/

namespace Asyncio

namespace Xmstream

open Wire Option

/-! ### Code -/

/-- `xmstream` -/
structure Stream where
  /-- `_m`, which may be null. -/
  m : Option Memory
  /-- `_p - _m` -/
  offset : ℕ
  size : ℕ
  msize : ℕ
  eof : Bool
  own : Bool

/-- `operator new` that does not throw: what is in the block for a size, if there is one. -/
abbrev Alloc := ℕ → Option Memory

/-- `xmstream(void *data, size_t size)` -/
def ofData (data : Option Memory) (size : UInt64) : Stream where
  m := data
  offset := 0
  size := if data.isSome then size.toNat else 0
  msize := if data.isSome then size.toNat else 0
  eof := false
  own := false

/-- `xmstream(size_t size)` -/
def ofSize (size : UInt64) (alloc : Alloc) : Stream :=
  let m := if size.toNat ≤ ptrdiffMax then alloc size.toNat else none
  { m := m, offset := 0, size := 0, msize := if m.isNone then 0 else size.toNat, eof := false, own := true }

namespace Stream

/-- `remaining` -/
def remaining (s : Stream) : ℕ := s.size - s.offset

/-- `_p`, as a result: null, or an offset. -/
def pointer (s : Stream) : Option ℕ := s.m.map fun _ => s.offset

/-- `reserve` -/
def reserve (s : Stream) (size : UInt64) (alloc : Alloc) : Option ℕ × Stream :=
  let s := { s with eof := false }
  if s.offset > ptrdiffMax ∨ size.toNat > ptrdiffMax - s.offset then (none, s)
  else
    let required := s.offset + size.toNat
    if required > s.msize then
      let newSize :=
        if s.msize ≠ 0 ∧ s.msize ≤ ptrdiffMax / 2 ∧ s.msize * 2 > required then s.msize * 2 else required
      match alloc newSize with
      | none => (none, s)
      | some block =>
        let m := match s.m with
          | some m => fill block 0 (slice m 0 s.size)
          | none => block
        (some s.offset,
          { s with m := some m, offset := required, size := required, msize := newSize, own := true })
    else
      match s.m with
      | none => (none, s)
      | some _ =>
        (some s.offset,
          { s with offset := required, size := if required < s.size then s.size else required })

/-- `reserve<T>`; `width` is `sizeof(T)`. -/
def reserveOf (s : Stream) (width num : UInt64) (alloc : Alloc) : Option ℕ × Stream :=
  if num.toNat > sizeMax / width.toNat then (none, s) else s.reserve (num * width) alloc

/-- `write`, of the first `size` bytes of `data`. -/
def write (s : Stream) (data : Memory) (size : UInt64) (alloc : Alloc) : Bool × Stream :=
  match s.reserve size alloc with
  | (none, s) => (false, s)
  | (some target, s) =>
    (true, { s with m := s.m.map fun m => fill m target (slice data 0 size.toNat) })

/-- `reset` -/
def reset (s : Stream) : Stream := { s with offset := 0, size := 0, eof := false }

/-- `seekSet` -/
def seekSet (s : Stream) (offset : UInt64) : Stream :=
  { s with offset := if offset.toNat < s.size then offset.toNat else s.size }

/-- `seek<T>`; `width` is `sizeof(T)`. -/
def seek (s : Stream) (width : UInt64) (num : Int64) : Option ℕ × Stream :=
  let p := (s.offset + width.toNat * num.toUInt64.toNat) % 2 ^ 64
  -- from `2 ^ 63` on, `newSize` is negative
  if p ≥ 2 ^ 63 then (s.pointer, { s with offset := 0 })
  else if p > s.size then (none, { s with offset := s.size, eof := true })
  else (s.pointer, { s with offset := p })

/-- `seekEnd<T>` -/
def seekEnd (s : Stream) (width num : UInt64) (setEof : Bool) : Stream :=
  let size := if num.toNat > sizeMax / width.toNat then sizeMax else width.toNat * num.toNat
  { s with offset := s.size - min size s.size, eof := if num = 0 && setEof then true else s.eof }

/-- `read`: the bytes that are copied. -/
def read (s : Stream) (size : UInt64) : List UInt8 × Stream :=
  match s.seek 1 size.toInt64 with
  | (none, s') => ([], s')
  | (some p, s') => ((s.m.map fun m => slice m p size.toNat).getD [], s')

/-- `truncate` -/
def truncate (s : Stream) : Stream := { s with size := s.offset }

end Stream

/-- A call of a public function. -/
inductive Op
  | reserve (size : UInt64) (alloc : Alloc)
  | reserveOf (width num : UInt64) (alloc : Alloc)
  | write (data : Memory) (size : UInt64) (alloc : Alloc)
  | seekSet (offset : UInt64)
  | seek (width : UInt64) (num : Int64)
  | seekEnd (width num : UInt64) (setEof : Bool)
  | read (size : UInt64)
  | truncate
  | reset

/-- What a call makes of a stream. -/
def Op.run (s : Stream) : Op → Stream
  | .reserve size alloc => (s.reserve size alloc).2
  | .reserveOf width num alloc => (s.reserveOf width num alloc).2
  | .write data size alloc => (s.write data size alloc).2
  | .seekSet offset => s.seekSet offset
  | .seek width num => (s.seek width num).2
  | .seekEnd width num setEof => s.seekEnd width num setEof
  | .read size => (s.read size).2
  | .truncate => s.truncate
  | .reset => s.reset

/-- A `reserve` or `write` that fails. -/
def Op.Fails (s : Stream) : Op → Prop
  | .reserve size alloc => (s.reserve size alloc).1 = none
  | .reserveOf width num alloc => (s.reserveOf width num alloc).1 = none
  | .write data size alloc => (s.write data size alloc).1 = false
  | _ => False

/-- How a stream is constructed. -/
inductive Start
  | memory (data : Option Memory) (size : UInt64)
  | owned (size : UInt64) (alloc : Alloc)

def Start.stream : Start → Stream
  | .memory data size => ofData data size
  | .owned size alloc => ofSize size alloc

/-- The stream after some calls. -/
def run (start : Start) (ops : List Op) : Stream := ops.foldl Op.run start.stream

/-! ### Bounds -/

/-- The cursor is within what was written, and this within the block. -/
structure Stream.Valid (s : Stream) : Prop where
  offset_le : s.offset ≤ s.size
  size_le : s.size ≤ s.msize
  msize_le : s.msize ≤ sizeMax
  /-- `_msize > 0` implies `_m != nullptr`. -/
  null : s.m = none → s.msize = 0

theorem valid_stream (start : Start) : start.stream.Valid := by
  cases start with
  | memory data size =>
    have hsize : size.toNat < 2 ^ 64 := size.toNat_lt
    cases data with
    | none => exact ⟨le_rfl, le_rfl, Nat.zero_le _, fun _ => rfl⟩
    | some m => exact ⟨Nat.zero_le _, le_rfl, Nat.le_pred_of_lt hsize, nofun⟩
  | owned size alloc =>
    have hsize : size.toNat < 2 ^ 64 := size.toNat_lt
    rw [Start.stream, ofSize]
    cases (if size.toNat ≤ ptrdiffMax then alloc size.toNat else none) with
    | none => exact ⟨le_rfl, le_rfl, Nat.zero_le _, fun _ => rfl⟩
    | some m => exact ⟨le_rfl, Nat.zero_le _, Nat.le_pred_of_lt hsize, nofun⟩

/-- What `reserve` comes to: nothing but `eof` is changed, or there is room for `size` more bytes. -/
theorem Stream.reserve_cases (s : Stream) (hs : s.Valid) (size : UInt64) (alloc : Alloc) :
    s.reserve size alloc = (none, { s with eof := false }) ∨
      ((s.reserve size alloc).1 = some s.offset ∧ (s.reserve size alloc).2.Valid ∧
        (s.reserve size alloc).2.m.isSome) := by
  rw [Stream.reserve]
  dsimp only
  split
  · exact .inl rfl
  next hroom =>
  split
  · next hgrow =>
    split
    · exact .inl rfl
    · refine .inr ⟨rfl, ⟨le_rfl, ?_, ?_, nofun⟩, rfl⟩
      · dsimp only
        split <;> omega
      · dsimp only
        rw [sizeMax]
        rw [ptrdiffMax] at *
        split <;> omega
  · next hfits =>
    split
    · exact .inl rfl
    · next m hm =>
      refine .inr ⟨rfl, ⟨?_, ?_, hs.msize_le, ?_⟩, ?_⟩
      · dsimp only
        split <;> omega
      · have hle := hs.size_le
        dsimp only
        split <;> omega
      · rw [hm]
        nofun
      · rw [hm]
        rfl

variable {s : Stream}

theorem Stream.Valid.eof (hs : s.Valid) (eof : Bool) : { s with eof := eof }.Valid :=
  ⟨hs.offset_le, hs.size_le, hs.msize_le, hs.null⟩

theorem Stream.Valid.reserve (hs : s.Valid) (size : UInt64) (alloc : Alloc) :
    (s.reserve size alloc).2.Valid := by
  obtain hfail | ⟨-, hvalid, -⟩ := s.reserve_cases hs size alloc
  · rw [hfail]
    exact hs.eof false
  · exact hvalid

/-- A cursor that is moved within what was written. -/
theorem Stream.Valid.move (hs : s.Valid) {offset : ℕ} (hle : offset ≤ s.size) (eof : Bool) :
    { s with offset := offset, eof := eof }.Valid :=
  ⟨hle, hs.size_le, hs.msize_le, hs.null⟩

theorem Stream.Valid.seek (hs : s.Valid) (width : UInt64) (num : Int64) :
    (s.seek width num).2.Valid := by
  rw [Stream.seek]
  split
  · exact hs.move (Nat.zero_le _) s.eof
  split
  · exact hs.move le_rfl true
  · exact hs.move (by omega) s.eof

/-- A call keeps the bounds. -/
theorem Stream.Valid.step (hs : s.Valid) (op : Op) : (op.run s).Valid := by
  cases op with
  | reserve size alloc => exact hs.reserve size alloc
  | reserveOf width num alloc =>
    rw [Op.run, Stream.reserveOf]
    split
    · exact hs
    · exact hs.reserve _ alloc
  | write data size alloc =>
    rw [Op.run, Stream.write]
    have hreserve := hs.reserve size alloc
    split
    · next heq =>
      rw [heq] at hreserve
      exact hreserve
    · next heq =>
      rw [heq] at hreserve
      exact ⟨hreserve.offset_le, hreserve.size_le, hreserve.msize_le, fun hnone =>
        hreserve.null (map_eq_none_iff.mp hnone)⟩
  | seekSet offset =>
    refine hs.move ?_ s.eof
    split <;> omega
  | seek width num => exact hs.seek width num
  | seekEnd width num setEof => exact hs.move (Nat.sub_le _ _) _
  | read size =>
    have hseek := hs.seek 1 size.toInt64
    rw [Op.run, Stream.read]
    split
    · next heq =>
      rw [heq] at hseek
      exact hseek
    · next heq =>
      rw [heq] at hseek
      exact hseek
  | truncate => exact ⟨le_rfl, hs.offset_le.trans hs.size_le, hs.msize_le, hs.null⟩
  | reset => exact ⟨le_rfl, Nat.zero_le _, hs.msize_le, hs.null⟩

/-- **The bounds**, after any calls. -/
theorem Stream.Valid.run (start : Start) (ops : List Op) : (run start ops).Valid := by
  rw [Xmstream.run]
  have hs := valid_stream start
  generalize start.stream = s at hs
  induction ops generalizing s with
  | nil => exact hs
  | cons op ops ih => exact ih (op.run s) (hs.step op)

/-- A stream that is at the end of `bytes` has room for `size` more if and only if the protocols say so, as
long as there is memory. -/
theorem Stream.isSome_reserve (s : Stream) (hm : s.m.isSome) {alloc : Alloc} (halloc : ∀ n, (alloc n).isSome)
    {bytes : List UInt8} (hbytes : bytes.length = s.offset) (size : UInt64) :
    (s.reserve size alloc).1.isSome = Asyncio.reserve bytes size := by
  obtain ⟨m, hm⟩ := isSome_iff_exists.mp hm
  rw [Stream.reserve, Asyncio.reserve, hbytes, hm]
  dsimp only
  by_cases hroom : s.offset > ptrdiffMax ∨ size.toNat > ptrdiffMax - s.offset
  · rw [if_pos hroom, eq_comm]
    exact decide_eq_false (by omega)
  rw [if_neg hroom, decide_eq_true (by omega)]
  split
  · obtain ⟨block, hblock⟩ := isSome_iff_exists.mp (halloc
      (if s.msize ≠ 0 ∧ s.msize ≤ ptrdiffMax / 2 ∧ s.msize * 2 > s.offset + size.toNat then s.msize * 2
        else s.offset + size.toNat))
    rw [hblock]
    rfl
  · rfl

/-! ### Reading -/

/-- `read` copies the next `n` bytes if there are so many, and nothing otherwise. -/
def Stream.ReadOk (s : Stream) (n : UInt64) : Prop :=
  (n.toNat ≤ s.remaining →
    (s.read n).1 = (s.m.map fun m => slice m s.offset n.toNat).getD [] ∧
      (s.read n).2 = { s with offset := s.offset + n.toNat }) ∧
  (s.remaining < n.toNat → (s.read n).1 = [] ∧ (s.read n).2.eof = true)

/-- `seek` forward gives a pointer if and only if so much is left, and then goes on by as much. -/
def Stream.SeekOk (s : Stream) (width : UInt64) (num : Int64) : Prop :=
  ((s.seek width num).1.isSome ↔ width.toNat * num.toNatClampNeg ≤ s.remaining) ∧
    ((s.seek width num).1.isSome →
      (s.seek width num).2.offset = s.offset + width.toNat * num.toNatClampNeg)

/-- The cursor comes before `2 ^ 63`, and there is a block or something to go over; or it does not, and
comes round to a place behind what was written. -/
def Stream.SeekFits (s : Stream) (distance : ℕ) : Prop :=
  (s.offset + distance < 2 ^ 63 ∧ (s.m.isSome ∨ distance ≠ 0)) ∨
    (2 ^ 63 ≤ s.offset + distance ∧ s.size < s.offset + distance ∧
      (s.m = none ∨
        (s.size < (s.offset + distance) % 2 ^ 64 ∧ (s.offset + distance) % 2 ^ 64 < 2 ^ 63)))

variable {s : Stream}

theorem Stream.Valid.size_lt (hs : s.Valid) : s.size < 2 ^ 64 := by
  have hle := hs.size_le.trans hs.msize_le
  rw [sizeMax] at hle
  omega

theorem Stream.isSome_pointer (s : Stream) : s.pointer.isSome = s.m.isSome := by
  rw [Stream.pointer, isSome_map]

theorem Stream.seekOk_iff (hs : s.Valid) (width : UInt64) {num : Int64} (hnum : 0 ≤ num) :
    s.SeekOk width num ↔ s.SeekFits (width.toNat * num.toNatClampNeg) := by
  have hlt := hs.size_lt
  have hle := hs.offset_le
  have hnat : num.toUInt64.toNat = num.toNatClampNeg := Int64.toNat_toUInt64_of_le hnum
  have hnull : s.m.isSome = false → s.size = 0 := by
    intro hm
    have hmsize := hs.null (isNone_iff_eq_none.mp (by simpa using hm))
    have := hs.size_le
    omega
  have hnone : s.m = none ↔ s.m.isSome = false := by simp
  rw [Stream.SeekOk, Stream.SeekFits, Stream.seek, Stream.remaining, hnat, hnone]
  generalize width.toNat * num.toNatClampNeg = distance
  by_cases hneg : (s.offset + distance) % 2 ^ 64 ≥ 2 ^ 63
  · rw [if_pos hneg, Stream.isSome_pointer]
    dsimp only
    cases hm : s.m.isSome with
    | true => simp; omega
    | false =>
      have := hnull hm
      simp; omega
  rw [if_neg hneg]
  by_cases hbehind : (s.offset + distance) % 2 ^ 64 > s.size
  · rw [if_pos hbehind]
    simp
    omega
  · rw [if_neg hbehind, Stream.isSome_pointer]
    dsimp only
    cases hm : s.m.isSome with
    | true => simp; omega
    | false =>
      have := hnull hm
      simp; omega

theorem Stream.read_eq (s : Stream) (n : UInt64) : s.read n =
    if (s.offset + n.toNat) % 2 ^ 64 ≥ 2 ^ 63 then
      ((s.m.map fun m => slice m s.offset n.toNat).getD [], { s with offset := 0 })
    else if (s.offset + n.toNat) % 2 ^ 64 > s.size then ([], { s with offset := s.size, eof := true })
    else
      ((s.m.map fun m => slice m s.offset n.toNat).getD [],
        { s with offset := (s.offset + n.toNat) % 2 ^ 64 }) := by
  have hone : (1 : UInt64).toNat * n.toInt64.toUInt64.toNat = n.toNat := by
    rw [UInt64.toUInt64_toInt64]
    exact Nat.one_mul _
  rw [Stream.read, Stream.seek, hone, Stream.pointer]
  by_cases hneg : (s.offset + n.toNat) % 2 ^ 64 ≥ 2 ^ 63
  · rw [if_pos hneg, if_pos hneg]
    cases s.m with
    | none => rfl
    | some m => rfl
  rw [if_neg hneg, if_neg hneg]
  by_cases hbehind : (s.offset + n.toNat) % 2 ^ 64 > s.size
  · rw [if_pos hbehind, if_pos hbehind]
  · rw [if_neg hbehind, if_neg hbehind]
    cases s.m with
    | none => rfl
    | some m => rfl

/-- The cursor comes before `2 ^ 63`, or there is nothing to copy from and the end has been seen. -/
def Stream.ReadFits (s : Stream) (n : UInt64) : Prop :=
  s.offset + n.toNat < 2 ^ 63 ∨ (s.m = none ∧ s.eof = true)

/-- Past `2 ^ 63`, `read` copies whatever is there, and does not see the end. -/
theorem Stream.read_of_not_fits (hs : s.Valid) {n : UInt64} (h : 2 ^ 63 ≤ s.offset + n.toNat) :
    (s.read n).1 = (s.m.map fun m => slice m s.offset n.toNat).getD [] ∧
      (s.read n).2.eof = s.eof := by
  have hlt := hs.size_lt
  have hle := hs.offset_le
  have hn : n.toNat < 2 ^ 64 := n.toNat_lt
  rw [Stream.read_eq]
  by_cases hneg : (s.offset + n.toNat) % 2 ^ 64 ≥ 2 ^ 63
  · rw [if_pos hneg]
    exact ⟨rfl, rfl⟩
  · rw [if_neg hneg, if_neg (by omega)]
    exact ⟨rfl, rfl⟩

theorem Stream.readOk_iff (hs : s.Valid) (n : UInt64) : s.ReadOk n ↔ s.ReadFits n := by
  have hlt := hs.size_lt
  have hle := hs.offset_le
  have hn : n.toNat < 2 ^ 64 := n.toNat_lt
  by_cases hfits : s.offset + n.toNat < 2 ^ 63
  · refine ⟨fun _ => .inl hfits, fun _ => ?_⟩
    rw [Stream.ReadOk, Stream.read_eq, Stream.remaining,
      Nat.mod_eq_of_lt (show s.offset + n.toNat < 2 ^ 64 by omega), if_neg (by omega)]
    constructor
    · intro henough
      rw [if_neg (by omega)]
      exact ⟨rfl, rfl⟩
    · intro hshort
      rw [if_pos (by omega)]
      exact ⟨rfl, rfl⟩
  obtain ⟨hcopied, heof⟩ := s.read_of_not_fits hs (Nat.le_of_not_lt hfits)
  constructor
  · rintro ⟨henough, hshort⟩
    by_cases hremaining : n.toNat ≤ s.remaining
    · -- the cursor goes to the start, not to the end of what was copied
      have hstate := congrArg Stream.offset (henough hremaining).2
      rw [Stream.remaining] at hremaining
      rw [Stream.read_eq, if_pos (by omega)] at hstate
      dsimp only at hstate
      omega
    · obtain ⟨hnothing, hend⟩ := hshort (Nat.lt_of_not_le hremaining)
      refine .inr ⟨?_, heof.symm.trans hend⟩
      cases hm : s.m with
      | none => rfl
      | some m =>
        rw [hcopied, hm] at hnothing
        have hlength := congrArg List.length hnothing
        rw [map_some, getD_some, length_slice, List.length_nil] at hlength
        omega
  · rintro (hlt | ⟨hm, hend⟩)
    · exact absurd hlt hfits
    · have hsize : s.size = 0 := by
        have := hs.null hm
        have := hs.size_le
        omega
      refine ⟨fun hremaining => ?_, fun _ => ⟨?_, heof.trans hend⟩⟩
      · rw [Stream.remaining] at hremaining
        omega
      · rw [hcopied, hm]
        rfl

/-! ### All together -/

/-- A failed call changes nothing but `eof`. -/
theorem Op.run_of_fails (hs : s.Valid) {op : Op} (h : op.Fails s) :
    { op.run s with eof := s.eof } = s := by
  have hreserve (size : UInt64) (alloc : Alloc) (hnone : (s.reserve size alloc).1 = none) :
      { (s.reserve size alloc).2 with eof := s.eof } = s := by
    obtain hfail | ⟨hsome, -⟩ := s.reserve_cases hs size alloc
    · rw [hfail]
    · rw [hsome] at hnone
      cases hnone
  cases op with
  | reserve size alloc => exact hreserve size alloc h
  | reserveOf width num alloc =>
    rw [Op.Fails, Stream.reserveOf] at h
    rw [Op.run, Stream.reserveOf]
    split
    · rfl
    · next hnum =>
      rw [if_neg hnum] at h
      exact hreserve _ alloc h
  | write data size alloc =>
    rw [Op.Fails, Stream.write] at h
    rw [Op.run, Stream.write]
    cases hr : s.reserve size alloc with
    | mk target s' =>
      rw [hr] at h
      cases target with
      | none =>
        have hfail := hreserve size alloc (by rw [hr])
        rw [hr] at hfail
        exact hfail
      | some target => cases h
  | seekSet => exact h.elim
  | seek => exact h.elim
  | seekEnd => exact h.elim
  | read => exact h.elim
  | truncate => exact h.elim
  | reset => exact h.elim

/-- **Reads stay inside the written bytes** as long as the cursor does not come to `2 ^ 63`. After any calls,
the cursor is within what was written, and this within the block; `read` and a `seek` forward do what they
are for if and only if their distance fits; and a `reserve` or `write` that fails leaves everything but
`eof` as it was. -/
theorem reads_inside_iff (start : Start) (ops : List Op) :
    (run start ops).offset ≤ (run start ops).size ∧ (run start ops).size ≤ (run start ops).msize ∧
      (∀ n, (run start ops).ReadOk n ↔ (run start ops).ReadFits n) ∧
      (∀ width num, 0 ≤ num →
        ((run start ops).SeekOk width num ↔
          (run start ops).SeekFits (width.toNat * num.toNatClampNeg))) ∧
      ∀ op : Op, op.Fails (run start ops) →
        { op.run (run start ops) with eof := (run start ops).eof } = run start ops := by
  have hs := Stream.Valid.run start ops
  exact ⟨hs.offset_le, hs.size_le, fun n => Stream.readOk_iff hs n,
    fun width num hnum => Stream.seekOk_iff hs width hnum, fun op h => Op.run_of_fails hs h⟩

/-- Two bytes of three, and then one of the last. -/
theorem reads_inside_two :
    (run (.memory (some fun i => .ofNat i) 3) [.read 2]).ReadOk 1 ∧
      (run (.memory (some fun i => .ofNat i) 3) [.read 2]).SeekOk 1 1 := by
  obtain ⟨-, -, hread, hseek, -⟩ := reads_inside_iff (.memory (some fun i => .ofNat i) 3) [.read 2]
  have hoffset : (run (.memory (some fun i => .ofNat i) 3) [.read 2]).offset = 2 := by decide +kernel
  have hmemory : (run (.memory (some fun i => .ofNat i) 3) [.read 2]).m.isSome = true := by decide +kernel
  refine ⟨(hread 1).mpr (.inl ?_), (hseek 1 1 (by decide)).mpr (.inl ⟨?_, .inl hmemory⟩)⟩
  · rw [hoffset]
    decide
  · rw [hoffset]
    decide

/-- A `read` of `SIZE_MAX` bytes copies them, out of a stream with one byte; and a `seek` over `2 ^ 61` words
of eight bytes goes nowhere. -/
theorem read_past_end :
    ((run (.memory (some fun _ => 0) 1) []).read 0xffffffffffffffff).1.length = 2 ^ 64 - 1 ∧
      ((run (.memory (some fun _ => 0) 1) []).read 0xffffffffffffffff).2.eof = false ∧
      ((run (.memory (some fun _ => 0) 1) []).seek 8 0x2000000000000000).1 = some 0 ∧
      ((run (.memory (some fun _ => 0) 1) []).seek 8 0x2000000000000000).2.offset = 0 := by
  obtain ⟨hcopied, heof⟩ := Stream.read_of_not_fits
    (Stream.Valid.run (.memory (some fun _ => 0) 1) []) (n := 0xffffffffffffffff) (by decide +kernel)
  have hm : (run (.memory (some fun _ => 0) 1) []).m = some fun _ => 0 := rfl
  refine ⟨?_, heof, by decide +kernel, by decide +kernel⟩
  rw [hcopied, hm, map_some, getD_some, length_slice]
  decide +kernel

end Xmstream

end Asyncio

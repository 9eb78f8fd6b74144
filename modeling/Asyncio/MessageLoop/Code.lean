import Asyncio.Concurrent.Program
import Mathlib.Logic.Function.Basic

/-!
# The message loop

Completions are pushed to the global queue of a base, and threads that run the message loop take them
from there. A thread that finds nothing to do sleeps in `epoll_wait`; one eventfd, the doorbell, wakes
it up. Whoever pushes a completion writes to the doorbell, except the loop thread itself when there can
be no other. A request to quit is a sticky word, which every thread reads before it sleeps; it takes
one write, and each thread that leaves writes again while others remain.

The queue is taken as what it is for its users: a push first claims a cell and then publishes it, and
a pop fails where the first cell is not published, also if later ones are. `View` says where each thread
is; nothing reads it.

## Main definitions

* `epollEnqueue`, `postQuitOperation` — who rings
* `loopThreadEnter`, `loopThreadExit` — the registration of loop threads
* `epollNextFinishedOperation` — the loop
* `thread` — any sequence of these calls
-/

namespace Asyncio

namespace MessageLoop

open Concurrent Function

/-! ### State -/

/-- A cell of the global queue. -/
structure Cell where
  ticket : ℕ
  published : Bool

/-- The variables of a thread. `messageLoopThreadId` counts only while `loopThreadSlotOwned` is set, and
`loopThreadBase` is the base exactly then. -/
structure ThreadLocal where
  messageLoopThreadId : ℕ
  loopThreadSlotOwned : Bool

/-- The base. -/
structure Mem (τ : Type) where
  /-- The cells that are claimed and not taken out. -/
  globalQueue : List Cell
  enqueuePos : ℕ
  /-- The counter of the eventfd is not zero. -/
  eventFd : Bool
  quitRequested : Bool
  /-- The bits of `loopThreadSlots`. -/
  loopThreadSlots : ℕ → Bool
  messageLoopThreadCounter : ℕ
  threadLocal : τ → ThreadLocal

/-- Where a thread is. -/
structure View where
  /-- In `epoll_wait`. -/
  blocked : Bool
  /-- In `epollEnqueue`. -/
  enqueuing : Bool
  /-- The cell it has claimed and not published. -/
  claimed : Option ℕ
  /-- In `epollEnqueue`, and going to write to the doorbell. -/
  rings : Bool
  /-- Going to empty the queue before it sleeps. -/
  drains : Bool
  /-- Going to read `quitRequested` before it sleeps, or about to leave. -/
  asks : Bool
  /-- It has requested to quit, or has left while others remain, and has not written to the doorbell. -/
  wakes : Bool

structure State (τ : Type) where
  mem : Mem τ
  view : τ → View
  /-- The threads that are in `messageLoopThreadCounter`. -/
  counted : List τ

/-- A thread that is in none of the functions that ring. -/
def View.idle (drains asks : Bool) : View := ⟨false, false, none, false, drains, asks, false⟩

/-- A new base. -/
def State.initial {τ : Type} : State τ where
  mem := ⟨[], 0, false, false, fun _ => false, 0, fun _ => ⟨0, false⟩⟩
  view := fun _ => .idle false false
  counted := []

section Code

variable {τ : Type} [DecidableEq τ]

/-! ### Instructions -/

/-- Thread `t` is elsewhere now. -/
def State.move (s : State τ) (t : τ) (f : View → View) : State τ :=
  { s with view := update s.view t (f (s.view t)) }

/-- One access by thread `t`, and where it is then. -/
def instr {β : Type} (t : τ) (f : Mem τ → β × Mem τ) (note : Mem τ → View → View) :
    Prog (State τ) β :=
  .act fun s => some ((f s.mem).1, { s.move t (note s.mem) with mem := (f s.mem).2 })

variable (loopThreadLimit : ℕ) (t : τ)

/-! ### Who rings -/

/-- `enqueueNeedsDoorbell`, for a completion -/
def enqueueNeedsDoorbell (m : Mem τ) : Bool :=
  !(decide (loopThreadLimit = 1) && (m.threadLocal t).loopThreadSlotOwned)

/-- `concurrentQueuePush` -/
def concurrentQueuePush : Prog (State τ) Unit := do
  let ticket ← instr t (fun m => (m.enqueuePos, { m with
        globalQueue := m.globalQueue ++ [⟨m.enqueuePos, false⟩]
        enqueuePos := m.enqueuePos + 1 }))
    fun m v =>
      { v with
        enqueuing := true
        claimed := some m.enqueuePos
        rings := enqueueNeedsDoorbell loopThreadLimit t m }
  instr t (fun m => ((), { m with globalQueue := m.globalQueue.map fun c =>
          if c.ticket = ticket then { c with published := true } else c }))
    fun _ v => { v with claimed := none }

/-- `epollEnqueue` -/
def epollEnqueue : Prog (State τ) Unit := do
  concurrentQueuePush loopThreadLimit t
  let needed ← instr t (fun m => (enqueueNeedsDoorbell loopThreadLimit t m, m)) fun m v =>
    if enqueueNeedsDoorbell loopThreadLimit t m then v else { v with enqueuing := false }
  if needed then
    instr t (fun m => ((), { m with eventFd := true }))
      fun _ v => { v with enqueuing := false, rings := false }
  else return ()

/-- `epollWakeupLoop` -/
def epollWakeupLoop : Prog (State τ) Unit :=
  instr t (fun m => ((), { m with eventFd := true })) fun _ v => { v with wakes := false }

/-- `postQuitOperation` -/
def postQuitOperation : Prog (State τ) Unit := do
  instr t (fun m => ((), { m with quitRequested := true })) fun _ v => { v with wakes := true }
  epollWakeupLoop t

/-- What a callback may do, and the handlers of timers and of events of other descriptors: complete
operations, wake the loop for a timer, request to quit. -/
inductive Work
  | complete
  | kick
  | quit

/-- Any amount of work. -/
def work : Prog (State τ) Unit :=
  .loop (fun _ : Unit => do
    let next ← (.pick fun s _ s' => s' = s : Prog (State τ) (Option Work))
    match next with
    | none => return .inr ()
    | some .complete =>
      epollEnqueue loopThreadLimit t
      return .inl ()
    | some .kick =>
      epollWakeupLoop t
      return .inl ()
    | some .quit =>
      postQuitOperation t
      return .inl ()) ()

/-! ### The loop -/

/-- `concurrentQueuePop`; answers whether there was a completion. A thread that finds none has emptied
the queue. -/
def concurrentQueuePop : Prog (State τ) Bool :=
  .act fun s =>
    match s.mem.globalQueue with
    | ⟨_, true⟩ :: rest => some (true, { s with mem := { s.mem with globalQueue := rest } })
    | _ => some (false, s.move t fun v => { v with drains := false })

/-- `executeGlobalQueue` -/
def executeGlobalQueue : Prog (State τ) Unit :=
  .loop (fun _ : Unit => do
    let found ← concurrentQueuePop t
    if found then
      work loopThreadLimit t
      return .inl ()
    else return .inr ()) ()

/-- `loopThreadEnter`; answers whether there was a slot. The variables of the thread are written with
the claim of the slot; no other thread sees them. -/
def loopThreadEnter : Prog (State τ) Bool :=
  .loop (fun id => do
    if id < loopThreadLimit then
      let taken ← instr t (fun m => (m.loopThreadSlots id, m)) fun _ v => v
      if taken then return .inl (id + 1)
      else
        let old ← instr t (fun m => (m.loopThreadSlots id, if m.loopThreadSlots id then m
            else { m with
              loopThreadSlots := update m.loopThreadSlots id true
              threadLocal := update m.threadLocal t ⟨id, true⟩ }))
          fun m v => if m.loopThreadSlots id then v else { v with drains := true }
        if !old then
          (.act fun s => some ((), { s.move t fun v => { v with asks := true } with
              mem := { s.mem with
                messageLoopThreadCounter := s.mem.messageLoopThreadCounter + 1 }
              counted := t :: s.counted }) : Prog (State τ) Unit)
          return .inr true
        else return .inl (id + 1)
    else return .inr false) 0

/-- `loopThreadExit`; answers how many remain. -/
def loopThreadExit : Prog (State τ) ℕ := do
  let remaining ← (.act fun s =>
    let remaining := s.mem.messageLoopThreadCounter - 1
    some (remaining,
      { s.move t fun v => { v with asks := false, wakes := decide (remaining ≠ 0) } with
        mem := { s.mem with messageLoopThreadCounter := remaining }
        counted := s.counted.erase t }) : Prog (State τ) ℕ)
  instr t (fun m => ((), { m with
        loopThreadSlots := update m.loopThreadSlots
          (m.threadLocal t).messageLoopThreadId false
        threadLocal := update m.threadLocal t
          { m.threadLocal t with loopThreadSlotOwned := false } }))
    fun _ v => v
  return remaining

/-- `epoll_wait`: the thread sleeps, and returns for whatever reason; answers whether the doorbell is
among the events. -/
def epollWait : Prog (State τ) Bool := do
  instr t (fun m => ((), m)) fun _ v => { v with blocked := true }
  .pick fun s doorbell s' => (doorbell = true → s.mem.eventFd = true) ∧
    s' = s.move t fun v => { v with blocked := false, drains := true, asks := true }

/-- The events that `epoll_wait` brought: the doorbell, if it rang, is emptied once, and the others are
handled. -/
def handleEvents (doorbell : Bool) : Prog (State τ) Unit :=
  .loop (fun doorbell => do
    let next ← (.pick fun s next s' => s' = s ∧ (next = some true → doorbell = true) :
      Prog (State τ) (Option Bool))
    match next with
    | none => return .inr ()
    | some true =>
      instr t (fun m => ((), { m with eventFd := false })) fun _ v => v
      return .inl false
    | some false =>
      work loopThreadLimit t
      return .inl doorbell) doorbell

/-- `epollNextFinishedOperation` -/
def epollNextFinishedOperation : Prog (State τ) Unit := do
  let entered ← loopThreadEnter loopThreadLimit t
  if entered then
    .loop (fun _ : Unit => do
      executeGlobalQueue loopThreadLimit t
      let quitting ← instr t (fun m => (m.quitRequested, m)) fun m v =>
        if m.quitRequested then v else { v with asks := false }
      if quitting then
        let remaining ← loopThreadExit t
        (if remaining ≠ 0 then epollWakeupLoop t else return ())
        return .inr ()
      else
        let doorbell ← epollWait t
        -- `processTimeoutQueue`, and then the events, if any
        work loopThreadLimit t
        handleEvents loopThreadLimit t doorbell
        return .inl ()) ()
  else return ()

/-- A thread: outside of the loop it may do any work, and it may run the loop any number of times. -/
def thread : Prog (State τ) Unit :=
  .loop (fun _ : Unit => do
    work loopThreadLimit t
    epollNextFinishedOperation loopThreadLimit t
    return .inl ()) ()

end Code

end MessageLoop

end Asyncio

import Asyncio.Concurrent.Program
import Asyncio.Wheel.Sequential

/-!
# The timeout grid under concurrent use

The code of the grid: publication of a link, the visit of a window, the sweep, the kick of sleepers,
and how a loop thread decides for how long to sleep. Any thread may arm timers and sweep, and there
is no lock.

A slot is a pair that one instruction compares and swaps: the first link of its chain, and the start
of the window it stands for. Links are chained through `link->next`. The occupancy bits of 64 slots
are one word.

Ticks are natural numbers. The clock is a 64-bit count of microseconds, so no sum of ticks here
reaches the end of a 64-bit word. The sequence and epoch counters of the pre-clear brackets are
natural numbers too: they do not come round.

## Memory and history

`Mem` is what the code reads and writes. `Ghost` is a record for the proofs, of where each link is,
what was drained, what was announced to whom. No answer depends on it.

Whether the operation behind a link is still pending is not the grid's business: the answer of that
test is any.
-/

namespace Asyncio

namespace Timers

open Concurrent Wheel Function

/-! ### State -/

/-- The memory of one base, with `n` loop states; `ℓ` is the type of link cells. -/
structure Mem (ℓ : Type) (n : ℕ) where
  /-- `timerWheel.slots[level][index].low` -/
  low : ℕ → ℕ → Option ℓ
  /-- `timerWheel.slots[level][index].high` -/
  high : ℕ → ℕ → ℕ
  /-- The bit of `timerWheel.occupancy` -/
  occupancy : ℕ → ℕ → Bool
  timerCloseCursor : ℕ
  /-- `link->next` -/
  next : ℓ → Option ℓ
  /-- `link->deadlineTick` -/
  deadlineTick : ℓ → ℕ
  /-- `timerLoopStates[i].wakeTick` -/
  wakeTick : Fin n → ℕ
  /-- `timerLoopStates[i].preclearSequence` -/
  preclearSequence : Fin n → ℕ
  /-- `timerPreclearOverflow >> 32` -/
  overflowEpoch : ℕ
  /-- `timerPreclearOverflow & timerPreclearOverflowActiveMask` -/
  overflowActive : ℕ
  /-- `wakeupLoop` was called and no loop thread has been woken by it. -/
  doorbell : Bool
  /-- The monotonic clock, in microseconds. -/
  now : ℕ

/-- `timerLoopStates[j].preclearSequence = sequence` -/
def Mem.setSequence {ℓ : Type} {n : ℕ} (m : Mem ℓ n) (j : Fin n) (sequence : ℕ) : Mem ℓ n :=
  { m with preclearSequence := update m.preclearSequence j sequence }

/-- `timerLoopStates[j].wakeTick = wake` -/
def Mem.setWake {ℓ : Type} {n : ℕ} (m : Mem ℓ n) (j : Fin n) (wake : ℕ) : Mem ℓ n :=
  { m with wakeTick := update m.wakeTick j wake }

/-- Where a link is. -/
inductive Place (τ : Type) where
  | pool
  /-- In the private chain of thread `t`, or about to be published by it. -/
  | held (t : τ)
  | slot (level index : ℕ)
  deriving DecidableEq

/-- How far the publication of a link is. -/
inductive Stage where
  /-- It is in the slot. -/
  | pushed
  /-- And the occupancy bit was set for it. -/
  | marked
  /-- And the sleepers were looked at. -/
  | settled
  deriving DecidableEq

/-- A window was drained. -/
structure Drain (τ : Type) where
  level : ℕ
  index : ℕ
  baseTick : ℕ
  winner : τ

structure Ghost (ℓ τ : Type) (n : ℕ) where
  place : ℓ → Place τ
  chain : ℕ → ℕ → List ℓ
  held : τ → List ℓ
  /-- The link was accepted and not yet recycled. -/
  live : ℓ → Bool
  /-- How many times it was. -/
  accepted : ℓ → ℕ
  recycled : ℓ → ℕ
  drained : List (Drain τ)
  /-- The deadlines of the refused publications. -/
  refused : List ℕ
  /-- The deadlines of the delivered timeouts, with the time. -/
  timeouts : List (ℕ × ℕ)
  stage : ℓ → Stage
  /-- The link whose publication the thread has not finished. -/
  duty : τ → Option ℓ
  /-- The link's bit was set while the loop was going to sleep, or asleep. -/
  late : Fin n → ℓ → Bool
  /-- The thread has a pre-clear bracket open. -/
  bracket : τ → Bool
  /-- The slot whose bit the thread may have cleared, with a chain in it. -/
  clearing : τ → Option (ℕ × ℕ)
  /-- The threads without a loop state that have a bracket open. -/
  overflowing : List τ
  /-- The thread is inside `timerWheelInsert` or `timerWheelSweepTick`. -/
  inside : τ → Bool
  registered : Fin n → Bool
  /-- `timerLoopPrepareSleep` has returned, `timerLoopCancelSleep` has not run. -/
  asleep : Fin n → Bool
  /-- The doorbell has woken the loop, `timerLoopCancelSleep` has not run. -/
  answering : Fin n → Bool

structure State (ℓ τ : Type) (n : ℕ) where
  mem : Mem ℓ n
  ghost : Ghost ℓ τ n

/-- `UINTPTR_MAX`, the horizon of a loop that is awake. -/
def awake : ℕ := word - 1

/-- `timerSleepEternal` -/
def timerSleepEternal : ℕ := word - 2

/-! ### What is recorded -/

namespace Ghost

variable {ℓ τ : Type} {n : ℕ} [DecidableEq ℓ] [DecidableEq τ]

/-- Thread `t` published a link it had. -/
def publish (t : τ) (level index : ℕ) (link : ℓ) (g : Ghost ℓ τ n) : Ghost ℓ τ n :=
  { g with
    place := update g.place link (.slot level index)
    chain := setAt g.chain level index (link :: g.chain level index)
    held := update g.held t ((g.held t).erase link)
    live := update g.live link true
    accepted := if g.live link then g.accepted
      else update g.accepted link (g.accepted link + 1)
    stage := update g.stage link .pushed
    duty := update g.duty t (some link) }

/-- Thread `t` set the occupancy bit for the link it is publishing. -/
def mark (t : τ) (m : Mem ℓ n) (g : Ghost ℓ τ n) : Ghost ℓ τ n :=
  match g.duty t with
  | none => g
  | some link =>
    { g with
      stage := update g.stage link .marked
      late := fun j => update (g.late j) link (m.wakeTick j ≠ awake) }

/-- Thread `t` has done what a publication takes. -/
def settle (t : τ) (g : Ghost ℓ τ n) : Ghost ℓ τ n :=
  match g.duty t with
  | none => g
  | some link =>
    { g with
      stage := update g.stage link .settled
      duty := update g.duty t none }

/-- Thread `t` took the chain of a slot. -/
def drain (t : τ) (level index baseTick : ℕ) (g : Ghost ℓ τ n) : Ghost ℓ τ n :=
  { g with
    place := fun link => if link ∈ g.chain level index then .held t else g.place link
    chain := setAt g.chain level index []
    held := update g.held t (g.chain level index)
    drained := ⟨level, index, baseTick, t⟩ :: g.drained
    duty := fun u => (g.duty u).filter (· ∉ g.chain level index)
    clearing := update g.clearing t none }

/-- Thread `t` took a link from the pool. -/
def acquire (t : τ) (link : ℓ) (g : Ghost ℓ τ n) : Ghost ℓ τ n :=
  { g with
    place := update g.place link (.held t)
    held := update g.held t (link :: g.held t) }

/-- Thread `t` gave a link back to the pool. -/
def recycle (t : τ) (link : ℓ) (g : Ghost ℓ τ n) : Ghost ℓ τ n :=
  { g with
    place := update g.place link .pool
    held := update g.held t ((g.held t).erase link)
    live := update g.live link false
    recycled := if g.live link then update g.recycled link (g.recycled link + 1)
      else g.recycled }

def refuse (deadline : ℕ) (g : Ghost ℓ τ n) : Ghost ℓ τ n :=
  { g with refused := deadline :: g.refused }

def timeOut (deadline now : ℕ) (g : Ghost ℓ τ n) : Ghost ℓ τ n :=
  { g with timeouts := (deadline, now) :: g.timeouts }

def enter (t : τ) (inside : Bool) (g : Ghost ℓ τ n) : Ghost ℓ τ n :=
  { g with inside := update g.inside t inside }

/-- Thread `t` opens a pre-clear bracket for a slot. -/
def openBracket (t : τ) (state : Option (Fin n)) (level index : ℕ) (g : Ghost ℓ τ n) :
    Ghost ℓ τ n :=
  { g with
    bracket := update g.bracket t true
    clearing := update g.clearing t (some (level, index))
    overflowing := if state = none then t :: g.overflowing else g.overflowing }

/-- The bit is set, or there is no chain to set it for. -/
def resolve (t : τ) (g : Ghost ℓ τ n) : Ghost ℓ τ n :=
  { g with clearing := update g.clearing t none }

def closeBracket (t : τ) (g : Ghost ℓ τ n) : Ghost ℓ τ n :=
  { g with
    bracket := update g.bracket t false
    overflowing := g.overflowing.erase t }

/-- The loop publishes that it goes to sleep, or that it is awake. -/
def renew (j : Fin n) (g : Ghost ℓ τ n) : Ghost ℓ τ n :=
  { g with
    late := update g.late j fun _ => false
    asleep := update g.asleep j false
    answering := update g.answering j false }

def fallAsleep (j : Fin n) (g : Ghost ℓ τ n) : Ghost ℓ τ n :=
  { g with asleep := update g.asleep j true }

def register (j : Fin n) (g : Ghost ℓ τ n) : Ghost ℓ τ n :=
  { g with registered := update g.registered j true }

end Ghost

/-! ### Instructions -/

section Instructions

variable {ℓ τ : Type} {n : ℕ} [DecidableEq ℓ] [DecidableEq τ]

/-- One atomic access. `f` is what it does; `note` is what is recorded, given the answer and the
memory before. -/
def instr {β : Type} (f : Mem ℓ n → β × Mem ℓ n) (note : β → Mem ℓ n → Ghost ℓ τ n → Ghost ℓ τ n) :
    Prog (State ℓ τ n) β :=
  .act fun s => some ((f s.mem).1, ⟨(f s.mem).2, note (f s.mem).1 s.mem s.ghost⟩)

/-- An atomic load. -/
def load {β : Type} (f : Mem ℓ n → β) : Prog (State ℓ τ n) β :=
  instr (fun m => (f m, m)) fun _ _ g => g

/-- An atomic store, or an exchange whose answer is not used. -/
def store (f : Mem ℓ n → Mem ℓ n) (note : Mem ℓ n → Ghost ℓ τ n → Ghost ℓ τ n) :
    Prog (State ℓ τ n) Unit :=
  instr (fun m => ((), f m)) fun _ => note

/-- Record something that is no access. -/
def note (f : Ghost ℓ τ n → Ghost ℓ τ n) : Prog (State ℓ τ n) Unit :=
  store id fun _ => f

/-- `__uint128_atomic_load_relaxed(slot)` -/
def loadSlot (level index : ℕ) : Prog (State ℓ τ n) (Option ℓ × ℕ) :=
  load fun m => (m.low level index, m.high level index)

/-- `__uint128_atomic_compare_and_swap(slot, observed, desired)`, with the pair it saw. -/
def casSlot (level index : ℕ) (observed desired : Option ℓ × ℕ)
    (won : Ghost ℓ τ n → Ghost ℓ τ n) (lost : Option ℓ × ℕ → Ghost ℓ τ n → Ghost ℓ τ n) :
    Prog (State ℓ τ n) (Bool × Option ℓ × ℕ) :=
  instr
    (fun m =>
      if (m.low level index, m.high level index) = observed then
        ((true, observed), { m with
            low := setAt m.low level index desired.1
            high := setAt m.high level index desired.2 })
      else ((false, m.low level index, m.high level index), m))
    fun r _ g => if r.1 then won g else lost r.2 g

def setOccupancy (level index : ℕ) (bit : Bool) (m : Mem ℓ n) : Mem ℓ n :=
  { m with occupancy := setAt m.occupancy level index bit }

/-- `timerWheelMarkOccupied` -/
def timerWheelMarkOccupied (level index : ℕ) (note : Mem ℓ n → Ghost ℓ τ n → Ghost ℓ τ n) :
    Prog (State ℓ τ n) Unit :=
  store (setOccupancy level index true) note

/-- `timerWheelClearOccupied` -/
def timerWheelClearOccupied (level index : ℕ) : Prog (State ℓ τ n) Unit :=
  store (setOccupancy level index false) fun _ g => g

/-- `timerWheelIsOccupied` -/
def timerWheelIsOccupied (level index : ℕ) : Prog (State ℓ τ n) Bool :=
  load fun m => m.occupancy level index

/-- `objectPoolGet`, or `malloc`, and the filling of the link; `none` where there is no memory. -/
def newLink (t : τ) : Prog (State ℓ τ n) (Option ℓ) :=
  .pick fun s answer s' =>
    match answer with
    | none => s' = s
    | some link => s.ghost.place link = .pool ∧ ∃ deadline ≤ deadlineLimit,
        s' = ⟨{ s.mem with deadlineTick := update s.mem.deadlineTick link deadline },
          s.ghost.acquire t link⟩

/-- `objectPoolPut` -/
def objectPoolPut (t : τ) (link : ℓ) : Prog (State ℓ τ n) Unit := note (Ghost.recycle t link)

/-- `opCancel` with `aosTimeout` -/
def cancelTimeout (deadline : ℕ) : Prog (State ℓ τ n) Unit :=
  store id fun m => Ghost.timeOut deadline m.now

/-- `methodImpl.wakeupLoop` -/
def wakeupLoop : Prog (State ℓ τ n) Unit :=
  store (fun m => { m with doorbell := true }) fun _ g => g

/-- A test whose answer is not the grid's business. -/
def anyBool : Prog (State ℓ τ n) Bool := .pick fun s _ s' => s' = s

end Instructions

/-! ### Publication -/

section Functions

variable {ℓ τ : Type} {n : ℕ} [DecidableEq ℓ] [DecidableEq τ] (t : τ)

/-- `timerKickUncoveredSleepers`, from the loop states `is` on. -/
def kickFrom (deadline : ℕ) : List (Fin n) → Bool → Prog (State ℓ τ n) Unit
  | [], hasSleeper => if hasSleeper then wakeupLoop else return ()
  | i :: is, hasSleeper => do
    let wakeTick ← load fun m => m.wakeTick i
    if wakeTick ≤ deadline + 1 then return ()
    else kickFrom deadline is (hasSleeper || decide (wakeTick ≠ awake))

/-- `timerKickUncoveredSleepers` -/
def timerKickUncoveredSleepers (deadline : ℕ) : Prog (State ℓ τ n) Unit := do
  kickFrom deadline (List.finRange n) false
  note (Ghost.settle t)

/-- `timerWheelTryPublish` -/
def timerWheelTryPublish (level index : ℕ) (observed : Option ℓ × ℕ) (link : ℓ) :
    Prog (State ℓ τ n) (Bool × Option ℓ × ℕ) := do
  store (fun m => { m with next := update m.next link observed.1 }) fun _ g => g
  let (won, seen) ← casSlot level index observed (some link, observed.2)
    (Ghost.publish t level index link) fun _ g => g
  if won then
    timerWheelMarkOccupied level index (Ghost.mark t)
    return (true, seen)
  else return (false, seen)

/-- `while (observed.high == expectedBase)` of `timerWheelInsert` -/
def publishInto (r : Route) (link : ℓ) : Option ℓ × ℕ → Prog (State ℓ τ n) Bool :=
  .loop fun observed =>
    if observed.2 = r.expectedBase then do
      let (won, seen) ← timerWheelTryPublish t r.level r.index observed link
      if won then return .inr true else return .inl seen
    else return .inr false

/-- `timerWheelInsert` -/
def timerWheelInsert (link : ℓ) (cursor : ℕ) : Prog (State ℓ τ n) Bool := do
  let deadline ← load fun m => m.deadlineTick link
  .loop (fun cursor =>
    if deadline < cursor then do
      note (Ghost.refuse deadline)
      return .inr false
    else do
      let r := route deadline cursor
      let observed ← loadSlot r.level r.index
      let published ← publishInto t r link observed
      if published then
        timerKickUncoveredSleepers t deadline
        return .inr true
      else if r.level = 0 then
        note (Ghost.refuse deadline)
        return .inr false
      else return .inl r.expectedBase) cursor

/-- `addToTimeoutQueue` -/
def addToTimeoutQueue : Prog (State ℓ τ n) Unit := do
  match ← newLink t with
  | none => return ()
  | some link =>
    let cursor ← load fun m => m.timerCloseCursor
    note (Ghost.enter t true)
    let published ← timerWheelInsert t link cursor
    note (Ghost.enter t false)
    if published then return ()
    else
      let deadline ← load fun m => m.deadlineTick link
      objectPoolPut t link
      cancelTimeout deadline

/-! ### The sweep -/

variable (state : Option (Fin n))

/-- Open the pre-clear bracket; answers `sequence`. -/
def openBracket (level index : ℕ) : Prog (State ℓ τ n) ℕ :=
  match state with
  | some j => do
    let sequence ← load fun m => m.preclearSequence j
    store (fun m => m.setSequence j (sequence + 1))
      fun _ => Ghost.openBracket t (some j) level index
    return sequence
  | none => do
    store (fun m => { m with
        overflowEpoch := m.overflowEpoch + 1
        overflowActive := m.overflowActive + 1 })
      fun _ => Ghost.openBracket t none level index
    return 0

def closeBracket (sequence : ℕ) : Prog (State ℓ τ n) Unit :=
  match state with
  | some j => store (fun m => m.setSequence j (sequence + 2)) fun _ => Ghost.closeBracket t
  | none =>
    store (fun m => { m with overflowActive := m.overflowActive - 1 })
      fun _ => Ghost.closeBracket t

/-- The drain and reopening of a window, as one compare-and-swap. -/
def casDrain (level windowStart : ℕ) (observed : Option ℓ × ℕ) :
    Prog (State ℓ τ n) (Bool × Option ℓ × ℕ) :=
  casSlot level (slotIndex level windowStart) observed
    (none, windowStart + timerWheelPeriod level)
    (Ghost.drain t level (slotIndex level windowStart) observed.2)
    -- reopened by another visitor, and nothing published since
    fun seen => if seen.1 = none ∧ seen.2 > windowStart then Ghost.resolve t else id

/-- The loop of `timerWheelDetach`; answers the chain, and `sequence` if a bracket was opened. -/
def detachLoop (level windowStart : ℕ) :
    (Option ℓ × ℕ) × Option ℕ → Prog (State ℓ τ n) (Option ℓ × Option ℕ) :=
  let index := slotIndex level windowStart
  .loop fun (observed, opened) =>
    if observed.2 > windowStart then do
      (if observed.1.isSome then timerWheelMarkOccupied level index fun _ => Ghost.resolve t
        else return ())
      return .inr (none, opened)
    else do
      let occupied ← (match opened with
        | none => timerWheelIsOccupied level index
        | some _ => return true)
      if occupied then
        let sequence ← (match opened with
          | none => openBracket t state level index
          | some sequence => return sequence)
        timerWheelClearOccupied level index
        let (won, seen) ← casDrain t level windowStart observed
        if won then return .inr (observed.1, some sequence) else return .inl (seen, some sequence)
      else
        let (won, seen) ← casDrain t level windowStart observed
        if won then return .inr (observed.1, none) else return .inl (seen, none)

/-- `timerWheelDetach` -/
def timerWheelDetach (level windowStart : ℕ) : Prog (State ℓ τ n) (Option ℓ) := do
  let observed ← loadSlot level (slotIndex level windowStart)
  let (chain, opened) ← detachLoop t state level windowStart (observed, none)
  match opened with
  | some sequence => do
    closeBracket t state sequence
    return chain
  | none => return chain

/-- `timerWheelProcessDetached` -/
def timerWheelProcessDetached (windowStart : ℕ) : Option ℓ → Prog (State ℓ τ n) Unit :=
  .loop fun link =>
    match link with
    | none => return .inr ()
    | some link => do
      let next ← load fun m => m.next link
      let deadlineTick ← load fun m => m.deadlineTick link
      -- `currentTag != expectedTag`
      let stale ← anyBool
      if stale then
        objectPoolPut t link
        return .inl next
      else
        let published ← (if deadlineTick > windowStart then timerWheelInsert t link windowStart
          else return false)
        if published then return .inl next
        else
          cancelTimeout deadlineTick
          objectPoolPut t link
          return .inl next

/-- `timerWheelVisit` -/
def timerWheelVisit (level windowStart : ℕ) : Prog (State ℓ τ n) Unit := do
  let chain ← timerWheelDetach t state level windowStart
  timerWheelProcessDetached t windowStart chain

/-- The visits of `timerWheelSweepTick`, of these levels in this order. -/
def visitAll (tick : ℕ) : List ℕ → Prog (State ℓ τ n) Unit
  | [] => return ()
  | level :: rest => do
    timerWheelVisit t state level tick
    visitAll tick rest

/-- `timerWheelSweepTick` -/
def timerWheelSweepTick (tick : ℕ) : Prog (State ℓ τ n) Unit := do
  visitAll t state tick (visits tick)
  store (fun m =>
      if m.timerCloseCursor = tick then { m with timerCloseCursor := tick + 1 } else m)
    fun _ g => g

/-- `processTimeoutQueue` -/
def processTimeoutQueue (currentTick : ℕ) : Prog (State ℓ τ n) Unit := do
  let cursor ← load fun m => m.timerCloseCursor
  if cursor ≥ currentTick then return ()
  else .loop (fun _ : Unit => do
    let tick ← load fun m => m.timerCloseCursor
    if tick < currentTick then
      note (Ghost.enter t true)
      timerWheelSweepTick t state tick
      note (Ghost.enter t false)
      return .inl ()
    else return .inr ()) ()

end Functions

/-! ### Going to sleep -/

section Sleep

variable {ℓ τ : Type} {n : ℕ} [DecidableEq ℓ] [DecidableEq τ]

/-- The pass of `timerWheelNearestWake` over one level, from `slotIndex`, which is visited at
`visitTick`; answers the new `best`. -/
def scanLevel (level best : ℕ) : ℕ × ℕ × ℕ → Prog (State ℓ τ n) ℕ :=
  .loop fun (index, visitTick, remaining) =>
    if remaining = 0 ∨ visitTick + 1 ≥ best then return .inr best
    else do
      let bitPosition := index % 64
      let take := min (64 - bitPosition) remaining
      let bits ← load fun m => fun bit : ℕ => m.occupancy level (index / 64 * 64 + bit)
      match (List.range take).find? fun k => bits (bitPosition + k) with
      | some k =>
        let candidate := visitTick + k * timerWheelWidth level + 1
        return .inr (if candidate < best then candidate else best)
      | none =>
        return .inl ((index + take) % slots, visitTick + take * timerWheelWidth level,
          remaining - take)

/-- `timerWheelNearestWake` -/
def timerWheelNearestWake (start : ℕ) : Prog (State ℓ τ n) ℕ :=
  .loop (fun (level, best) =>
    let width := timerWheelWidth level
    let boundary := windowStart level (start + width - 1)
    if level ≥ levels ∨ boundary + 1 ≥ best then return .inr best
    else do
      let best ← scanLevel level best (slotIndex level boundary, boundary, slots)
      return .inl (level + 1, best)) (0, awake)

/-- `timerPreclearSnapshot`, from the loop states `is` on; `none` where a bracket is open. -/
def snapshotFrom (own : Fin n) : List (Fin n) → ℕ → Prog (State ℓ τ n) (Option ℕ)
  | [], version => do
    let (epoch, active) ← load fun m => (m.overflowEpoch, m.overflowActive)
    return if active = 0 then some (version + epoch) else none
  | i :: is, version =>
    if i = own then snapshotFrom own is version
    else do
      let sequence ← load fun m => m.preclearSequence i
      if sequence % 2 = 1 then return none else snapshotFrom own is (version + sequence)

/-- `timerPreclearSnapshot` -/
def timerPreclearSnapshot (own : Fin n) : Prog (State ℓ τ n) (Option ℕ) :=
  snapshotFrom own (List.finRange n) 0

/-- The scan of `timerLoopPrepareSleep` between two snapshots; starts with `attempt` and the version
`before`. -/
def validatedScan (j : Fin n) (start : ℕ) : ℕ × ℕ → Prog (State ℓ τ n) ℕ :=
  .loop fun (attempt, before) => do
    let wake ← timerWheelNearestWake start
    if wake = start + 1 then return .inr wake
    else
      let after ← timerPreclearSnapshot j
      let capped := if wake > start + 1 then start + 1 else wake
      match after with
      | none => return .inr capped
      | some version =>
        if version = before then return .inr wake
        else if attempt + 1 = 2 then return .inr capped
        else return .inl (attempt + 1, version)

/-- `0x7FFFFFFFu / (TIMER_TICK_MICROSECONDS / 1000)` -/
def sleepTicksLimit : ℕ := 0x7FFFFFFF / (tickMicroseconds / 1000)

/-- `timerLoopPrepareSleep` -/
def timerLoopPrepareSleep (j : Fin n) (currentTick : ℕ) : Prog (State ℓ τ n) ℕ := do
  store (fun m => m.setWake j timerSleepEternal) fun _ => Ghost.renew j
  let cursor ← load fun m => m.timerCloseCursor
  let start := if cursor < currentTick then cursor else currentTick
  let before ← timerPreclearSnapshot j
  let wake ← (match before with
    | none => return start + 1
    | some version => validatedScan j start (0, version))
  if wake = awake then
    note (Ghost.fallAsleep j)
    return wake
  else
    let wake := if wake - currentTick > sleepTicksLimit then currentTick + sleepTicksLimit else wake
    store (fun m => m.setWake j wake) fun _ => Ghost.fallAsleep j
    return wake

/-- `timerLoopCancelSleep` -/
def timerLoopCancelSleep (j : Fin n) : Prog (State ℓ τ n) Unit :=
  store (fun m => m.setWake j awake) fun _ => Ghost.renew j

/-- The kernel wait. It ends for any reason at any time; one that there may be is the doorbell. -/
def kernelWait (j : Fin n) : Prog (State ℓ τ n) Unit :=
  .pick fun s _ s' => s' = s ∨ (s.mem.doorbell = true ∧
    s' = ⟨{ s.mem with doorbell := false },
      { s.ghost with answering := update s.ghost.answering j true }⟩)

/-! ### Threads -/

/-- `getMonotonicTicks` -/
def readClock : Prog (State ℓ τ n) ℕ := load fun m => getMonotonicTicks m.now

/-- Time passes. -/
def elapse : Prog (State ℓ τ n) Unit :=
  .pick fun s _ s' => ∃ now, s.mem.now ≤ now ∧ now < word ∧ s' = ⟨{ s.mem with now := now }, s.ghost⟩

variable (t : τ)

/-- Any number of timers are armed. -/
def armAny : Prog (State ℓ τ n) Unit :=
  .loop (fun _ : Unit => do
    let more ← anyBool
    if more then
      addToTimeoutQueue t
      return .inl ()
    else return .inr ()) ()

/-- A loop thread: `epollNextFinishedOperation`, as far as the grid goes. -/
def loopThread (j : Fin n) : Prog (State ℓ τ n) Unit := do
  note (Ghost.register j)
  .loop (fun _ : Unit => do
    armAny t
    let sleepFrom ← readClock
    let _ ← timerLoopPrepareSleep j sleepFrom
    kernelWait j
    timerLoopCancelSleep j
    let currentTick ← readClock
    processTimeoutQueue t (some j) currentTick
    return .inl ()) ()

/-- Any other thread: it arms, sweeps without a loop state, rings the doorbell, or lets time
pass. -/
def otherThread : Prog (State ℓ τ n) Unit :=
  .loop (fun _ : Unit => do
    armAny t
    let currentTick ← readClock
    processTimeoutQueue t none currentTick
    let ring ← anyBool
    (if ring then wakeupLoop else return ())
    elapse
    return .inl ()) ()

end Sleep

end Timers

end Asyncio

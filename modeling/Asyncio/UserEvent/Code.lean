import Asyncio.Concurrent.Program
import Mathlib.Algebra.GroupWithZero.Nat
import Mathlib.Logic.Function.Iterate

/-!
# User events

A user event has a manual signal, a timer schedule and one waiting coroutine. Four words are shared.

* The **tag** counts references, and carries two bits: the event is being deleted, and a waiter is
  committed. The incarnation beside it grows each time the cell is reused.
* The **control word** is a *configuration* (period, counter) from when it is published until the
  owner applies it, and from then on the *ticks* not yet drained. Both carry the schedule generation,
  and whether somebody owns the timer. Who sets the owner bit is the owner, and serves what others
  write until it can clear the bit on an unchanged word.
* The **waiter word** is a number of credits, a coroutine that waits or sleeps, or the sentinel that
  a deletion leaves.
* The **signal state** counts activations not yet taken. Who takes it from zero rings the doorbell.

The schedule generation is a 32-bit word that skips zero, and the ticks are 64-bit. The reference
count, the incarnation, the sequence of the waiter word and the signal state are natural numbers.

The backend timer is armed for a generation and a period, or not; `etuStop` always succeeds, and
`etuStart` may fail, also for want of memory for the timer. A doorbell is a flag that a post sets and a
delivery clears.

## Memory and history

`Mem` is what the code reads and writes. `Ghost` is a record for the proofs, in four parts: the
schedules, the activations, the deletion, and the life of the cell.
-/

namespace Asyncio

namespace UserEvent

open Concurrent

/-! ### Memory -/

/-- `header.tag.low` -/
structure Tag where
  refs : ℕ
  /-- `TAG_EVENT_WAITER_COMMITTED` -/
  committed : Bool
  /-- `TAG_EVENT_DELETE` -/
  deleted : Bool
  deriving DecidableEq

/-- Add `TAG_EVENT_WAITER_COMMITTED`, which carries into `TAG_EVENT_DELETE`. -/
def Tag.commit (g : Tag) : Tag :=
  { g with committed := !g.committed, deleted := xor g.deleted g.committed }

/-- Subtract `TAG_EVENT_WAITER_COMMITTED`, which borrows from `TAG_EVENT_DELETE`. -/
def Tag.uncommit (g : Tag) : Tag :=
  { g with committed := !g.committed, deleted := xor g.deleted !g.committed }

/-- Add `TAG_EVENT_DELETE`. -/
def Tag.delete (g : Tag) : Tag := { g with deleted := !g.deleted }

/-- `timerControl` -/
structure Control where
  /-- The period of a configuration, or the pending ticks. -/
  low : ℕ
  counter : ℕ
  generation : ℕ
  /-- `EVENT_TIMER_OWNER` -/
  owner : Bool
  deriving DecidableEq

/-- `waiter.low`, by `EventWaiterTag` -/
inductive Waiter (κ : Type)
  | credits (n : ℕ)
  | user (k : κ)
  | sleep (k : κ)
  | deleted
  deriving DecidableEq

/-- The coroutine in a waiter word. -/
def Waiter.coroutine {κ : Type} : Waiter κ → Option κ
  | user k | sleep k => some k
  | credits _ | deleted => none

def Waiter.isSleep {κ : Type} : Waiter κ → Bool
  | sleep _ => true
  | _ => false

/-- `waiter`: the low word and the sequence. -/
structure WaiterWord (κ : Type) where
  low : Waiter κ
  sequence : ℕ
  deriving DecidableEq

/-- `aioTimerUserEventState` -/
structure TimerState where
  remaining : ℕ
  armed : Bool
  period : ℕ

/-- The memory of one event, its timer and its doorbell. -/
structure Mem (κ : Type) where
  tag : Tag
  /-- `header.tag.high` -/
  incarnation : ℕ
  hasCallback : Bool
  isSemaphore : Bool
  hasDestructor : Bool
  signalState : ℕ
  control : Control
  waiter : WaiterWord κ
  timer : Option TimerState
  /-- What the backend timer is armed for: a generation and a period. -/
  backend : Option (ℕ × ℕ)
  /-- A doorbell was posted and is not yet consumed. -/
  doorbell : Bool
  /-- The calls that a coroutine has not yet taken. -/
  wakeups : κ → ℕ

/-! ### History -/

/-- A configuration of the timer. -/
structure Config where
  generation : ℕ
  period : ℕ
  counter : ℕ
  deriving DecidableEq

/-- A published configuration, by the number of its publication; `terminal` is the deletion's own. -/
structure Publication where
  number : ℕ
  config : Config
  terminal : Bool

/-- A configuration as it was applied, by the number of its publication. -/
structure Application where
  number : ℕ
  config : Config
  /-- How many of its ticks were added to deliveries. -/
  counted : ℕ
  /-- Its timer was stopped by exhaustion, and its last ticks were added. -/
  exhausted : Bool

/-- The schedules. -/
structure Schedules (τ : Type) where
  /-- The generation before the first publication. -/
  first : ℕ
  /-- How many configurations were published, in all incarnations. -/
  publications : ℕ
  /-- Who acts as owner. -/
  owners : List τ
  /-- The configurations of this incarnation, the newest first. -/
  published : List Publication
  /-- The configurations of this incarnation that were applied, the newest first. -/
  applied : List Application
  /-- The generation of the newest applied configuration, or the one the incarnation began with. -/
  appliedGeneration : ℕ
  /-- The control word is a configuration that nobody has applied yet. -/
  unapplied : Bool
  /-- The generations that the backend was armed for, in all incarnations. -/
  armedFor : List ℕ
  /-- Those of this incarnation. -/
  armedHere : List ℕ
  /-- The arm call of the newest applied configuration succeeded. -/
  armSucceeded : Bool
  /-- What the newest applied configuration has spent of its counter. -/
  spent : ℕ
  /-- The generations of the signals whose ticks are pending. -/
  pendingFrom : List ℕ
  /-- For each schedule, the generations of the signals that a kernel owner drained for it. -/
  drainedFrom : List (ℕ × ℕ)
  /-- A tick was added to a configuration. -/
  misplaced : Bool
  /-- A tick was accepted in another incarnation than its timer was armed in. -/
  crossed : Bool
  /-- `deleteUserEvent` was called in this incarnation. -/
  deleteCalled : Bool
  /-- Who is in `deleteUserEvent` and has not published the terminal configuration. -/
  deleting : Option τ

/-- The activations. -/
structure Activations (τ : Type) where
  /-- The calls of `userEventActivate` that performed their fetch-add. -/
  performed : ℕ
  /-- The counts exchanged out and not yet given to the waiter word. -/
  carried : List (τ × ℕ)
  /-- The calls of `ioWaitUserEvent` and `ioSleep` released, by a credit or by a resume. -/
  released : ℕ
  /-- Who observed the edge from zero and has not posted the doorbell. -/
  edge : List τ
  /-- Who consumed a doorbell and has not performed the exchange. -/
  consumed : List τ

/-- The deletion. -/
structure Deletion (τ : Type) where
  /-- Who is inside a call, and not in `coroutineYield`. -/
  busy : List τ
  /-- Who installed a waiter and has not committed it. -/
  installing : List τ
  /-- Who has to post the cancellation, up to the store to the signal state. -/
  owing : List τ
  /-- Who has stored the cancellation's signal and not yet posted its doorbell. -/
  stored : List τ
  /-- Who took a signal, and has not seen the event alive since. -/
  cancelling : List τ
  /-- How many waiters were installed. -/
  installs : ℕ
  /-- Who took an installed waiter out of the word and has not called it. -/
  calling : List (τ × ℕ)
  /-- The installed waiters that were passed to `coroutineCall`. -/
  called : List ℕ
  /-- The last installed waiter has not returned from `coroutineYield`. -/
  waiting : Bool

/-- Where a cell is in its life. -/
inductive Phase (τ : Type)
  | live
  /-- `t` took the count to zero and has not run the destructor. -/
  | zero (t : τ)
  /-- The destructor has run. -/
  | destroyed (t : τ)
  /-- The incarnation is over, `releaseUserEvent` is to run. -/
  | releasing (t : τ)
  | pooled
  /-- `t` took the cell from the pool. -/
  | initializing (t : τ)
  deriving DecidableEq

/-- The life of the cell. -/
structure Life (τ : Type) where
  phase : Phase τ
  /-- The references that threads hold. -/
  held : List τ
  /-- The explicit references that are in no thread's hands. -/
  explicit : ℕ
  /-- The incarnations in which the destructor callback and `releaseUserEvent` ran. -/
  destructions : List ℕ
  releases : List ℕ
  /-- The incarnations handed out by `newUserEvent`. -/
  created : List ℕ
  /-- `releaseUserEvent` found the timer owned or armed. -/
  unclean : Bool
  /-- A claim succeeded at zero, or for another incarnation. -/
  misclaimed : Bool

structure Ghost (τ : Type) where
  schedules : Schedules τ
  activations : Activations τ
  deletion : Deletion τ
  life : Life τ

structure State (κ τ : Type) where
  mem : Mem κ
  ghost : Ghost τ

/-- No schedules yet, with `first` the generation in the control word. -/
def Schedules.initial {τ : Type} (first : ℕ) : Schedules τ where
  first := first
  publications := 0
  owners := []
  published := []
  applied := []
  appliedGeneration := first
  unapplied := false
  armedFor := []
  armedHere := []
  armSucceeded := false
  spent := 0
  pendingFrom := []
  drainedFrom := []
  misplaced := false
  crossed := false
  deleteCalled := false
  deleting := none

/-- A cell that was never used before, as `newUserEvent` hands it out. -/
def State.fresh {κ τ : Type} (isSemaphore hasCallback : Bool) : State κ τ where
  mem :=
    { tag := ⟨1, false, false⟩
      incarnation := 0
      hasCallback := hasCallback
      isSemaphore := isSemaphore
      hasDestructor := false
      signalState := 0
      control := ⟨0, 0, 0, false⟩
      waiter := ⟨.credits 0, 0⟩
      timer := none
      backend := none
      doorbell := false
      wakeups := fun _ => 0 }
  ghost :=
    { schedules := .initial 0
      activations := ⟨0, [], 0, [], []⟩
      deletion := ⟨[], [], [], [], [], 0, [], [], false⟩
      life := ⟨.live, [], 0, [], [], [0], false, false⟩ }

/-! ### What is recorded -/

section Record

variable {τ : Type} [DecidableEq τ]

namespace Schedules

/-- `t` published a configuration over a word whose owner bit was `owned`. -/
def publish (t : τ) (owned : Bool) (x : Config) (terminal : Bool) (g : Schedules τ) :
    Schedules τ :=
  { g with
    publications := g.publications + 1
    owners := if owned then g.owners else t :: g.owners
    published := ⟨g.publications, x, terminal⟩ :: g.published
    unapplied := true
    pendingFrom := []
    deleting := if terminal then none else g.deleting }

/-- A tick of `generation` was added. -/
def tick (t : τ) (owned : Bool) (generation : ℕ) (g : Schedules τ) : Schedules τ :=
  { g with
    owners := if owned then g.owners else t :: g.owners
    pendingFrom := generation :: g.pendingFrom
    misplaced := g.misplaced || g.unapplied
    crossed := g.crossed || decide (generation ∉ g.armedHere) }

/-- The owner applied `x`, which is the newest published configuration. -/
def apply (x : Config) (g : Schedules τ) : Schedules τ :=
  { g with
    applied := ⟨(g.published.head?.map Publication.number).getD 0, x, 0, false⟩ :: g.applied
    appliedGeneration := x.generation
    unapplied := false
    armSucceeded := false
    spent := 0 }

def arm (generation : ℕ) (ok : Bool) (g : Schedules τ) : Schedules τ :=
  { g with
    armSucceeded := ok
    armedFor := if ok then generation :: g.armedFor else g.armedFor
    armedHere := if ok then generation :: g.armedHere else g.armedHere }

/-- A user owner throws the pending ticks away. -/
def discard (g : Schedules τ) : Schedules τ := { g with pendingFrom := [] }

/-- A kernel owner takes the pending ticks for `generation`. -/
def drain (generation : ℕ) (g : Schedules τ) : Schedules τ :=
  { g with
    pendingFrom := []
    drainedFrom := g.pendingFrom.map (generation, ·) ++ g.drainedFrom }

/-- `count` ticks were added to a delivery. -/
def count (count : ℕ) (exhausted : Bool) (g : Schedules τ) : Schedules τ :=
  { g with
    applied := g.applied.modifyHead fun x =>
      { x with counted := x.counted + count, exhausted := x.exhausted || exhausted } }

def release (t : τ) (g : Schedules τ) : Schedules τ := { g with owners := g.owners.erase t }

end Schedules

namespace Ghost

def onSchedules (f : Schedules τ → Schedules τ) (g : Ghost τ) : Ghost τ :=
  { g with schedules := f g.schedules }

def onActivations (f : Activations τ → Activations τ) (g : Ghost τ) : Ghost τ :=
  { g with activations := f g.activations }

def onDeletion (f : Deletion τ → Deletion τ) (g : Ghost τ) : Ghost τ :=
  { g with deletion := f g.deletion }

def onLife (f : Life τ → Life τ) (g : Ghost τ) : Ghost τ := { g with life := f g.life }

end Ghost

end Record

section Code

variable {κ τ : Type} [DecidableEq κ] [DecidableEq τ]

/-! ### Instructions -/

/-- One access of the memory. -/
def instr {β : Type} (f : Mem κ → β × Mem κ) (note : Mem κ → Ghost τ → Ghost τ) :
    Prog (State κ τ) β :=
  .act fun s => some ((f s.mem).1, ⟨(f s.mem).2, note s.mem s.ghost⟩)

/-- A read; what was read may be recorded. -/
def read {β : Type} (f : Mem κ → β) (note : β → Ghost τ → Ghost τ) : Prog (State κ τ) β :=
  instr (fun m => (f m, m)) fun m => note (f m)

/-- `__uint128_atomic_load(&event->timerControl)` -/
def loadControl : Prog (State κ τ) Control := read (·.control) fun _ => id

/-- `__uint128_atomic_compare_and_swap(&event->timerControl, &expected, desired)`; answers whether
it won, and the word it found. -/
def casControl (expected desired : Control) (won : Ghost τ → Ghost τ) :
    Prog (State κ τ) (Bool × Control) :=
  .act fun s =>
    if s.mem.control = expected then
      some ((true, expected), ⟨{ s.mem with control := desired }, won s.ghost⟩)
    else some ((false, s.mem.control), s)

/-- `__uint128_atomic_load_relaxed(&event->waiter)` -/
def loadWaiter : Prog (State κ τ) (WaiterWord κ) := read (·.waiter) fun _ => id

/-- `__uint128_atomic_compare_and_swap(&event->waiter, &expected, desired)`; every winner adds one to
the sequence. -/
def casWaiter (expected : WaiterWord κ) (desired : Waiter κ) (won : Ghost τ → Ghost τ) :
    Prog (State κ τ) (Bool × WaiterWord κ) :=
  .act fun s =>
    if s.mem.waiter = expected then
      some ((true, expected),
        ⟨{ s.mem with waiter := ⟨desired, expected.sequence + 1⟩ }, won s.ghost⟩)
    else some ((false, s.mem.waiter), s)

/-- `eventReferenceIsDeleting` -/
def eventReferenceIsDeleting (note : Bool → Ghost τ → Ghost τ) : Prog (State κ τ) Bool :=
  read (·.tag.deleted) note

def loadCallback : Prog (State κ τ) Bool := read (·.hasCallback) fun _ => id

/-- A fetch-add on `header.tag.low`. -/
def updateTag (f : Tag → Tag) (note : Mem κ → Ghost τ → Ghost τ) : Prog (State κ τ) Tag :=
  instr (fun m => (m.tag, { m with tag := f m.tag })) note

variable (t : τ)

/-! ### References -/

/-- `eventIncrementReference(event, 1)`, for a thread that keeps the reference in its hands. -/
def eventIncrementReference : Prog (State κ τ) Unit := do
  let _ ← updateTag (fun g => { g with refs := g.refs + 1 })
    fun _ => .onLife fun g => { g with held := t :: g.held }
  return ()

/-- `epollReleaseUserEvent`: the descriptors of the doorbell and of the timer are closed. -/
def releaseUserEvent (generation : ℕ) : Prog (State κ τ) Unit :=
  instr (fun m => ((), { m with doorbell := false, backend := none }))
    fun m => .onLife fun g =>
      { g with
        phase := .pooled
        releases := generation :: g.releases
        unclean := g.unclean || m.control.owner || m.backend.isSome }

/-- `eventDecrementReference` -/
def eventDecrementReference (count : ℕ) : Prog (State κ τ) Unit := do
  let old ← updateTag (fun g => { g with refs := g.refs - count })
    fun m => .onLife fun g =>
      { g with
        held := (List.erase · t)^[count] g.held
        phase := if m.tag.refs = count then .zero t else g.phase }
  if old.refs = count then
    instr (fun m => ((), m))
      fun m => .onLife fun g =>
        { g with
          destructions := if m.hasDestructor then m.incarnation :: g.destructions
            else g.destructions
          phase := .destroyed t }
    let generation ← read (·.incarnation) fun _ => id
    instr (fun m => ((), { m with incarnation := generation + 1 }))
      fun _ => .onLife fun g => { g with phase := .releasing t }
    releaseUserEvent generation
  else return ()

/-- What `eventTryClaimReference` asks of the tag. -/
def Tag.admits (allowDeletedWaiter : Bool) (g : Tag) : Bool :=
  decide (g.refs ≠ 0) && (!g.deleted || (allowDeletedWaiter && g.committed))

/-- Who is refused a claim gives the doorbell up. -/
def giveUp (admitted : Bool) (g : Ghost τ) : Ghost τ :=
  if admitted then g
  else g.onActivations fun g => { g with consumed := g.consumed.erase t }

/-- `eventTryClaimReference`; the loop carries the word that the next attempt expects. -/
def eventTryClaimReference (eventGeneration : ℕ) (allowDeletedWaiter : Bool) :
    Prog (State κ τ) Bool := do
  let low ← read (·.tag) fun low => giveUp t (low.admits allowDeletedWaiter)
  .loop (fun (low, high) => do
    if high ≠ eventGeneration || !low.admits allowDeletedWaiter then return .inr false
    else
      let seen ← (.act fun s =>
        if s.mem.tag = low ∧ s.mem.incarnation = high then
          some (none, ⟨{ s.mem with tag := { low with refs := low.refs + 1 } },
            s.ghost.onLife fun g =>
              { g with
                held := t :: g.held
                misclaimed := g.misclaimed || decide (s.mem.tag.refs = 0)
                  || decide (s.mem.incarnation ≠ eventGeneration) }⟩)
        else some (some (s.mem.tag, s.mem.incarnation), ⟨s.mem,
          giveUp t (decide (s.mem.incarnation = eventGeneration)
            && s.mem.tag.admits allowDeletedWaiter) s.ghost⟩) :
        Prog (State κ τ) (Option (Tag × ℕ)))
      match seen with
      | none => return .inr true
      | some seen => return .inl seen) (low, eventGeneration)

/-! ### The timer -/

/-- `eventTimerNextGeneration` -/
def eventTimerNextGeneration (generation : ℕ) : ℕ :=
  let generation := (generation + 1) % 2 ^ 32
  if generation ≠ 0 then generation else 1

/-- `eventTimerStop` -/
def eventTimerStop : Prog (State κ τ) Unit :=
  instr (fun m => ((), match m.timer with
    | none => m
    | some state =>
      if state.armed then
        { m with timer := some { state with armed := false }, backend := none }
      else m)) fun _ => id

/-- `updateEventTimer(event, etuStart, generation, period)` and the owner's writes to the state of
the timer, which only the owner accesses. The call can fail, and where there is no timer yet there
may be no memory for one. -/
def startTimer (generation period counter : ℕ) : Prog (State κ τ) Unit :=
  .pick fun s _ s' =>
    (∃ ok : Bool, s' =
      ⟨{ s.mem with
          timer := some ⟨counter, ok, period⟩
          backend := if ok then some (generation, period) else none },
        s.ghost.onSchedules (.arm generation ok)⟩) ∨
    (s.mem.timer = none ∧ s' = s)

/-- `eventTimerApplyConfig`; answers whether it applied, and the word to go on with. -/
def eventTimerApplyConfig (current : Control) : Prog (State κ τ) (Bool × Control) := do
  eventTimerStop
  let active : Control := ⟨0, 0, current.generation, true⟩
  let (won, seen) ← casControl current active
    (.onSchedules (.apply ⟨current.generation, current.low, current.counter⟩))
  if won then
    (if current.low ≠ 0 then startTimer current.generation current.low current.counter
      else return ())
    return (true, active)
  else return (false, seen)

/-- `eventTimerTryRelease` -/
def eventTimerTryRelease (current : Control) : Prog (State κ τ) (Bool × Control) :=
  casControl current { current with owner := false } (.onSchedules (.release t))

/-- `eventTimerProcessUserOwner`; the loop carries the applied generation and the word last seen.
What `consumeEventTimerTick` answers here is not used. -/
def eventTimerProcessUserOwner (applied current : Control) : Prog (State κ τ) Unit :=
  .loop (fun (appliedGeneration, current) => do
    if current.generation ≠ appliedGeneration then
      let (ok, current) ← eventTimerApplyConfig current
      return .inl (if ok then current.generation else appliedGeneration, current)
    else if current.low ≠ 0 then
      let drained := { current with low := 0 }
      let (won, seen) ← casControl current drained (.onSchedules .discard)
      return .inl (appliedGeneration, if won then drained else seen)
    else
      let (won, seen) ← eventTimerTryRelease t current
      if won then return .inr () else return .inl (appliedGeneration, seen))
    (applied.generation, current)

/-- `consumeEventTimerTick`, which may answer any number, and what is taken off the counter; answers
the ticks that count, and whether the schedule is exhausted. -/
def consumeEventTimerTick : Prog (State κ τ) (ℕ × Bool) :=
  .pick fun s r s' =>
    match s.mem.timer with
    | none => r = (0, false) ∧ s' = s
    | some state =>
      if state.armed then
        ∃ raw : ℕ,
          let count := if state.remaining ≠ 0 then min raw state.remaining else raw
          r = (count, decide (state.remaining ≠ 0 ∧ state.remaining - count = 0)) ∧
          s' = ⟨{ s.mem with timer := some { state with remaining := state.remaining - count } },
            s.ghost.onSchedules fun g => { g with spent := g.spent + count }⟩
      else r = (0, false) ∧ s' = s

/-- `eventTimerProcessKernelOwner`; the loop carries the applied generation, the word last seen, and
the count and the generation of the delivery. -/
def eventTimerProcessKernelOwner (applied current : Control) : Prog (State κ τ) (ℕ × ℕ) :=
  .loop (fun (appliedGeneration, current, deliveryCount, deliveryGeneration) => do
    if current.generation ≠ appliedGeneration then
      let (ok, current) ← eventTimerApplyConfig current
      return .inl (if ok then current.generation else appliedGeneration, current, deliveryCount,
        deliveryGeneration)
    else if current.low ≠ 0 then
      let drained := { current with low := 0 }
      let (won, seen) ← casControl current drained (.onSchedules (.drain appliedGeneration))
      if won then
        let (count, exhausted) ← consumeEventTimerTick
        (if exhausted then eventTimerStop else return ())
        if count ≠ 0 then
          let callback ← loadCallback
          instr (fun m => ((), m)) fun _ =>
            .onSchedules (.count count exhausted)
          let deliveryCount := if !callback && deliveryGeneration ≠ appliedGeneration then 0
            else deliveryCount
          return .inl (appliedGeneration, drained, deliveryCount + count, appliedGeneration)
        else return .inl (appliedGeneration, drained, deliveryCount, deliveryGeneration)
      else return .inl (appliedGeneration, seen, deliveryCount, deliveryGeneration)
    else
      let (won, seen) ← eventTimerTryRelease t current
      if won then return .inr (deliveryCount, deliveryGeneration)
      else return .inl (appliedGeneration, seen, deliveryCount, deliveryGeneration))
    (applied.generation, current, 0, 0)

/-- `MAX_TIMEOUT_US` -/
def maxTimeoutUs : ℕ := 2 ^ 52

/-- `eventTimerPublishConfig` -/
def eventTimerPublishConfig (period : ℕ) (counter : ℤ) (requiredGeneration : ℕ) (terminal : Bool) :
    Prog (State κ τ) ℕ :=
  let period := min period maxTimeoutUs
  .loop (fun _ : Unit => do
    let old ← loadControl
    let deleting ← (if terminal then return false else eventReferenceIsDeleting fun _ => id)
    if deleting || (requiredGeneration ≠ 0 && old.generation ≠ requiredGeneration) then
      return .inr 0
    else
      let nextGeneration := eventTimerNextGeneration old.generation
      let desired : Control := ⟨period, counter.toNat, nextGeneration, true⟩
      let (won, _) ← casControl old desired
        (.onSchedules (.publish t old.owner ⟨nextGeneration, period, counter.toNat⟩ terminal))
      if won then
        (if old.owner then return () else eventTimerProcessUserOwner t old desired)
        return .inr nextGeneration
      else return .inl ()) ()

/-- `eventTimerCancelGeneration` -/
def eventTimerCancelGeneration (generation : ℕ) : Prog (State κ τ) Unit := do
  if generation ≠ 0 then
    let _ ← eventTimerPublishConfig t 0 0 generation false
    return ()
  else return ()

/-! ### The waiter -/

/-- `coroutineCall`, for a waiter that `t` took out of the word. -/
def coroutineCall (k : κ) : Prog (State κ τ) Unit :=
  instr (fun m => ((), { m with wakeups := Function.update m.wakeups k (m.wakeups k + 1) }))
    fun _ => .onDeletion fun g =>
      { g with
        calling := g.calling.filter (·.1 ≠ t)
        called := (g.calling.filter (·.1 = t)).map Prod.snd ++ g.called }

/-- `t` takes the coroutine of `low`, if any, out of the word. -/
def Deletion.take (low : Waiter κ) (g : Deletion τ) : Deletion τ :=
  { g with calling := if low.coroutine.isSome then (t, g.installs) :: g.calling else g.calling }

/-- The word that `eventCoroutineResume` writes. -/
def Waiter.resume (count : ℕ) : Waiter κ → Waiter κ
  | credits n => credits (n + count)
  | _ => credits (count - 1)

/-- The end of `eventCoroutineResume` and `eventCoroutineCancel`: call what was taken out. -/
def callTaken (low : Waiter κ) : Prog (State κ τ) Unit :=
  match low.coroutine with
  | none => return ()
  | some k => coroutineCall t k

/-- `eventCoroutineResume` -/
def eventCoroutineResume (count : ℕ) (manual : Bool) (generation : ℕ) : Prog (State κ τ) Unit := do
  let expected ← loadWaiter
  .loop (fun expected => do
    if expected.low = .deleted then return .inr ()
    else
      let stale ← (do
        if manual && expected.low.isSleep then
          let _ ← eventTimerPublishConfig t 0 0 0 false
          return false
        else if generation ≠ 0 then
          let control ← loadControl
          return control.generation ≠ generation
        else return false : Prog (State κ τ) Bool)
      if stale then return .inr ()
      else
        let (won, seen) ← casWaiter expected (expected.low.resume count) fun g =>
          { g with
            activations :=
              { g.activations with
                carried := if manual then g.activations.carried.erase (t, count)
                  else g.activations.carried
                released := if expected.low.coroutine.isSome then g.activations.released + 1
                  else g.activations.released }
            deletion := g.deletion.take t expected.low }
        if won then
          callTaken t expected.low
          return .inr ()
        else return .inl seen) expected

/-- What `eventTimerSignal` does between its claim of a reference and the release of it. -/
def eventTimerSignalClaimed (timerGeneration tickCount : ℕ) : Prog (State κ τ) Unit :=
  .loop (fun _ : Unit => do
    let old ← loadControl
    if old.generation ≠ timerGeneration then return .inr ()
    else
      let desired := { old with low := (old.low + tickCount) % 2 ^ 64, owner := true }
      let (won, seen) ← casControl old desired (.onSchedules (.tick t old.owner timerGeneration))
      if won then
        if old.owner then return .inr ()
        else
          let (deliveryCount, deliveryGeneration) ← eventTimerProcessKernelOwner t old desired
          if deliveryCount ≠ 0 then
            let callback ← loadCallback
            -- a callback event runs its callback; what that does, other threads may do
            (if callback then return ()
              else eventCoroutineResume t deliveryCount false deliveryGeneration)
            return .inr ()
          else return .inr ()
      else if seen.generation ≠ timerGeneration then return .inr ()
      else return .inl ()) ()

/-- `eventTimerSignal` -/
def eventTimerSignal (timerGeneration eventGeneration tickCount : ℕ) : Prog (State κ τ) Unit := do
  let incarnation ← read (·.incarnation) fun _ => id
  if timerGeneration = 0 ∨ incarnation ≠ eventGeneration then return ()
  else
    let claimed ← eventTryClaimReference t eventGeneration false
    if claimed then
      eventTimerSignalClaimed t timerGeneration tickCount
      eventDecrementReference t 1
    else return ()

/-- `eventCoroutineCancel` -/
def eventCoroutineCancel : Prog (State κ τ) Unit := do
  let old ← loadWaiter
  .loop (fun old => do
    if old.low = .deleted then return .inr ()
    else
      let (won, seen) ← casWaiter old .deleted (.onDeletion (.take t old.low))
      if won then
        callTaken t old.low
        return .inr ()
      else return .inl seen) old

/-- `activate` of the backend: post the doorbell. -/
def activate (note : Ghost τ → Ghost τ) : Prog (State κ τ) Unit :=
  instr (fun m => ((), { m with doorbell := true })) fun _ => note

/-- `eventActivateCancellation` -/
def eventActivateCancellation : Prog (State κ τ) Unit := do
  instr (fun m => ((), { m with signalState := 1 }))
    fun _ => .onDeletion fun g => { g with owing := g.owing.erase t, stored := t :: g.stored }
  activate (.onDeletion fun g => { g with stored := g.stored.erase t })

/-- `eventInstallWaiter`, with `waiter` the coroutine and its kind. -/
def eventInstallWaiter (waiter : Waiter κ) : Prog (State κ τ) Bool := do
  let expected ← loadWaiter
  .loop (fun expected =>
    match expected.low with
    | .deleted => return .inr false
    | .credits 0 => do
      let (won, seen) ← casWaiter expected waiter (.onDeletion fun g =>
        { g with installs := g.installs + 1, installing := t :: g.installing, waiting := true })
      if won then
        let oldTag ← updateTag Tag.commit fun m => .onDeletion fun g =>
          { g with
            installing := g.installing.erase t
            owing := if m.tag.deleted then t :: g.owing else g.owing }
        (if oldTag.deleted then eventActivateCancellation t else return ())
        return .inr true
      else return .inl seen
    | .credits (n + 1) => do
      let (won, seen) ← casWaiter expected (.credits n) (.onActivations fun g =>
        { g with released := g.released + 1 })
      if won then return .inr false else return .inl seen
    -- "Only one coroutine may wait on a user event"
    | .user _ | .sleep _ => .act fun _ => none) expected

/-- `eventFinishWaiter` -/
def eventFinishWaiter : Prog (State κ τ) Unit := do
  let _ ← updateTag Tag.uncommit fun _ => id
  return ()

/-- `eventProcessCancellation` -/
def eventProcessCancellation : Prog (State κ τ) Unit := do
  instr (fun m => ((), { m with signalState := 0 })) fun _ => id
  eventCoroutineCancel t

/-- `eventManualReady` -/
def eventManualReady : Prog (State κ τ) Unit := do
  let count ← instr (fun m => (m.signalState, { m with signalState := 0 })) fun m g =>
    { g with
      activations :=
        { g.activations with
          consumed := g.activations.consumed.erase t
          carried := if m.signalState ≠ 0 then (t, m.signalState) :: g.activations.carried
            else g.activations.carried }
      deletion :=
        { g.deletion with
          cancelling := if m.signalState ≠ 0 then t :: g.deletion.cancelling
            else g.deletion.cancelling } }
  if count = 0 then return ()
  else
    let callback ← loadCallback
    if callback then return ()
    else
      let deleting ← eventReferenceIsDeleting fun deleting => .onDeletion fun g =>
        { g with cancelling := if deleting then g.cancelling else g.cancelling.erase t }
      if deleting then eventProcessCancellation t else eventCoroutineResume t count true 0

/-- `coroutineYield` of coroutine `k`, which returns when somebody calls the coroutine. -/
def coroutineYield (k : κ) : Prog (State κ τ) Unit := do
  instr (fun m => ((), m)) fun _ => .onDeletion fun g => { g with busy := g.busy.erase t }
  .act fun s =>
    if s.mem.wakeups k = 0 then none
    else some ((), ⟨{ s.mem with wakeups := Function.update s.mem.wakeups k (s.mem.wakeups k - 1) },
        s.ghost.onDeletion fun g => { g with busy := t :: g.busy, waiting := false }⟩)

/-! ### Calls -/

/-- `userEventStartTimer` -/
def userEventStartTimer (usTimeout : ℕ) (counter : ℤ) : Prog (State κ τ) Unit := do
  let deleting ← eventReferenceIsDeleting fun _ => id
  if deleting then return ()
  else
    let _ ← eventTimerPublishConfig t usTimeout counter 0 false
    return ()

/-- `userEventStopTimer` -/
def userEventStopTimer : Prog (State κ τ) Unit := do
  let deleting ← eventReferenceIsDeleting fun _ => id
  if deleting then return ()
  else
    let _ ← eventTimerPublishConfig t 0 0 0 false
    return ()

/-- `userEventActivate` -/
def userEventActivate : Prog (State κ τ) Unit := do
  let deleting ← eventReferenceIsDeleting fun _ => id
  if deleting then return ()
  else
    let old ← instr (fun m =>
        (m.signalState, { m with signalState := if m.isSemaphore then m.signalState + 1 else 1 }))
      fun m => .onActivations fun g =>
        { g with
          performed := g.performed + 1
          edge := if m.signalState = 0 then t :: g.edge else g.edge }
    if old = 0 then activate (.onActivations fun g => { g with edge := g.edge.erase t })
    else return ()

/-- `deleteUserEvent` up to the terminal publication; answers the old tag. -/
def deletePublish : Prog (State κ τ) Tag := do
  let oldTag ← updateTag Tag.delete fun m => .onDeletion fun g =>
    { g with owing := if !m.hasCallback && m.tag.committed then t :: g.owing else g.owing }
  let _ ← eventTimerPublishConfig t 0 0 0 true
  return oldTag

/-- `deleteUserEvent` -/
def deleteUserEvent : Prog (State κ τ) Unit := do
  let oldTag ← deletePublish t
  let callback ← loadCallback
  (if !callback && oldTag.committed then eventActivateCancellation t else return ())
  eventDecrementReference t 1

/-- The first loop of `ioSleep`; answers whether a credit was there, or the sentinel. -/
def consumeCredit : Prog (State κ τ) Bool := do
  let expected ← loadWaiter
  .loop (fun expected =>
    match expected.low with
    | .credits 0 => return .inr false
    | .deleted => return .inr true
    | .credits (n + 1) => do
      let (won, seen) ← casWaiter expected (.credits n) (.onActivations fun g =>
        { g with released := g.released + 1 })
      if won then return .inr true else return .inl seen
    -- "Only one coroutine may wait on a user event"
    | .user _ | .sleep _ => .act fun _ => none) expected

/-- `ioSleep`, called by coroutine `k`. -/
def ioSleep (k : κ) (usTimeout : ℕ) : Prog (State κ τ) Unit := do
  let deleting ← eventReferenceIsDeleting fun _ => id
  if deleting then return ()
  else
    let done ← consumeCredit
    if done then return ()
    else
      let generation ← eventTimerPublishConfig t usTimeout 1 0 false
      if generation = 0 then return ()
      else
        let installed ← eventInstallWaiter t (.sleep k)
        if installed then
          coroutineYield t k
          eventFinishWaiter
          eventTimerCancelGeneration t generation
        else eventTimerCancelGeneration t generation

/-- `ioWaitUserEvent`, called by coroutine `k`. -/
def ioWaitUserEvent (k : κ) : Prog (State κ τ) Unit := do
  let deleting ← eventReferenceIsDeleting fun _ => id
  if deleting then return ()
  else
    let installed ← eventInstallWaiter t (.user k)
    if installed then
      coroutineYield t k
      eventFinishWaiter
    else return ()

/-- The one call of `deleteUserEvent` in an incarnation begins, and takes over the reference that
`newUserEvent` left. -/
def beginDelete : Prog (State κ τ) Unit :=
  .act fun s =>
    if s.ghost.schedules.deleteCalled then none
    else some ((), ⟨s.mem, { s.ghost with
        schedules := { s.ghost.schedules with deleteCalled := true, deleting := some t }
        life := { s.ghost.life with held := t :: s.ghost.life.held } }⟩)

/-- A loop thread takes a posted doorbell, and is to deliver it. -/
def consumeDoorbell : Prog (State κ τ) Unit :=
  .act fun s =>
    if s.mem.doorbell then
      some ((), ⟨{ s.mem with doorbell := false }, { s.ghost with
          activations := { s.ghost.activations with consumed := t :: s.ghost.activations.consumed }
          deletion := { s.ghost.deletion with busy := t :: s.ghost.deletion.busy } }⟩)
    else none

/-- A call begins. -/
def enter : Prog (State κ τ) Unit :=
  instr (fun m => ((), m)) fun _ => .onDeletion fun g => { g with busy := t :: g.busy }

/-- A call is over. -/
def leave : Prog (State κ τ) Unit :=
  instr (fun m => ((), m)) fun _ => .onDeletion fun g =>
    { g with busy := g.busy.erase t, cancelling := g.cancelling.erase t }

/-- A reference is taken for `t` by somebody who holds one. -/
def obtainReference : Prog (State κ τ) Unit :=
  .act fun s =>
    if s.mem.tag.refs = 0 then none
    else some ((), ⟨{ s.mem with tag := { s.mem.tag with refs := s.mem.tag.refs + 1 } },
      s.ghost.onLife fun g => { g with held := t :: g.held }⟩)

end Code

end UserEvent

end Asyncio

import Asyncio.Concurrent.Program
import Mathlib.Algebra.Group.Nat.Defs

/-!
# Stackful coroutines

A coroutine is started and resumed by `coroutineCall`, from any thread. Its counter says who may run
it: a call adds two, and the call that finds zero becomes the runner. The runner switches to the
coroutine and takes one off when the coroutine switches back; the coroutine takes one off when it
yields. A call that finds a runner leaves its two for the coroutine's next yield, or for the runner.

The counter is a 32-bit word. The coroutine's body is any sequence of yields and a return. A call is
made on a coroutine that is not freed: the accesses that a call makes before it is the runner cannot
be made on freed memory.

## Memory and history

`Mem` is what the code reads and writes, and whether the saved context is past the body. `Ghost` is a
record for the proofs.
-/

namespace Asyncio

namespace Coroutine

open Concurrent

/-- The memory of one coroutine. -/
structure Mem where
  counter : ℕ
  finished : Bool
  /-- There is a `finishCb`. -/
  hasFinishCb : Bool
  /-- The saved context is behind the call of the entry point. -/
  returned : Bool
  freed : Bool

/-- Where the coroutine is, and who has it. -/
inductive Phase (τ : Type)
  | idle
  /-- `t` is about to switch to the coroutine. -/
  | claimed (t : τ)
  | running (t : τ)
  /-- In a yield that will return at once. -/
  | skipping (t : τ)
  /-- The coroutine has yielded, `t` has not yet taken its one off. -/
  | yielded (t : τ)
  /-- The flag is set, the coroutine has not yet taken its one off. -/
  | returning (t : τ)
  /-- The coroutine has switched back for the last time. -/
  | finished (t : τ)
  /-- `t` has taken its one off and will free the memory. -/
  | disposing (t : τ)
  /-- The memory is freed and `finishCb` not yet called. -/
  | freed (t : τ)
  | gone
  deriving DecidableEq

namespace Phase

variable {τ : Type}

/-- Who has the coroutine, or what is left of it. -/
def owner : Phase τ → Option τ
  | idle | gone => none
  | claimed t | running t | skipping t | yielded t | returning t | finished t | disposing t
  | freed t => some t

/-- Who executes the coroutine or is its runner. -/
def runner : Phase τ → Option τ
  | idle | disposing _ | freed _ | gone => none
  | claimed t | running t | skipping t | yielded t | returning t | finished t => some t

/-- The calls that incremented the counter and have not been answered. -/
def pending (counter : ℕ) : Phase τ → ℕ
  | running _ => (counter - 2) / 2
  | _ => counter / 2

end Phase

structure Ghost (τ : Type) where
  phase : Phase τ
  /-- The threads whose call found zero, up to their decrement that finds one, or the finish. -/
  runners : List τ
  /-- The thread that was the last to become the runner. -/
  last : Option τ
  /-- The calls that incremented the counter. -/
  calls : ℕ
  /-- How many times the coroutine was switched to. -/
  entered : ℕ
  /-- How many yields returned at once. -/
  atOnce : ℕ
  /-- A yield found less than two. -/
  asserted : Bool
  /-- The coroutine was switched to after its body had returned. -/
  reentered : Bool
  /-- The runner or the coroutine has accessed freed memory. -/
  dangling : Bool
  /-- Who freed the memory, and who called `finishCb`. -/
  frees : List τ
  finishes : List τ
  /-- A call that had seen the flag clear made its increment after the last decrement. -/
  late : Bool
  /-- A call made the counter come round. -/
  wrapped : Bool

structure State (τ : Type) where
  mem : Mem
  ghost : Ghost τ

/-- The counter is a 32-bit word. -/
def counterWord : ℕ := 2 ^ 32

theorem counterWord_eq : counterWord = 4294967296 := rfl

attribute [irreducible] counterWord

/-- One less in the counter. -/
def Mem.decrement (m : Mem) : Mem :=
  { m with counter := (m.counter + (counterWord - 1)) % counterWord }

theorem Mem.decrement_hasFinishCb (m : Mem) : m.decrement.hasFinishCb = m.hasFinishCb := by
  cases m
  rfl

theorem Mem.decrement_eq {m : Mem} (hword : m.counter < counterWord) (hpos : 1 ≤ m.counter) :
    m.decrement = { m with counter := m.counter - 1 } := by
  have hmod : (m.counter + (counterWord - 1)) % counterWord = m.counter - 1 := by
    rw [counterWord_eq] at *
    omega
  rw [decrement, hmod]

section Code

variable {τ : Type} [DecidableEq τ]

/-! ### Instructions -/

/-- An access that only a call on a living coroutine makes. -/
def onAlive {β : Type} (f : State τ → β × State τ) : Prog (State τ) β :=
  .act fun s => if s.mem.freed then none else some (f s)

/-- Any other access. -/
def access {β : Type} (f : State τ → β × State τ) : Prog (State τ) β :=
  .act fun s =>
    let r := f s
    some (r.1, ⟨r.2.mem, { r.2.ghost with dangling := s.ghost.dangling || s.mem.freed }⟩)

/-- `__sync_fetch_and_add(&coroutine->counter, -1)` -/
def decrement (note : ℕ → Ghost τ → Ghost τ) : Prog (State τ) ℕ :=
  access fun s => (s.mem.counter, ⟨s.mem.decrement, note s.mem.counter s.ghost⟩)

/-- `__uint_atomic_load(&coroutine->finished, amoAcquire)`, by the runner. -/
def loadFinished : Prog (State τ) Bool := access fun s => (s.mem.finished, s)

/-! ### The coroutine -/

variable (t : τ)

/-- `coroutineYield`; answers whether the coroutine was switched away from. -/
def coroutineYield : Prog (State τ) Bool := do
  let counter ← decrement fun counter g =>
    { g with
      asserted := g.asserted || decide (counter < 2)
      phase := if counter = 2 then .yielded t else .skipping t }
  if counter ≠ 2 then
    let _ ← decrement fun _ g => { g with atOnce := g.atOnce + 1, phase := .running t }
    return false
  else return true

/-- The end of `fiberEntryPoint` -/
def fiberReturn : Prog (State τ) Unit := do
  access fun s => ((), ⟨{ s.mem with finished := true, returned := true },
    { s.ghost with phase := .returning t }⟩)
  let _ ← decrement fun _ g => { g with phase := .finished t }
  return ()

/-- The coroutine from when it is switched to until it switches back: any yields, or the return. -/
def runBody : Prog (State τ) Unit :=
  .loop (fun _ : Unit => do
    let yields ← (.pick fun s _ s' => s' = s : Prog (State τ) Bool)
    if yields then
      let switched ← coroutineYield t
      if switched then return .inr () else return .inl ()
    else
      fiberReturn t
      return .inr ()) ()

/-- `coroutineSwitchContext(coroutine->prev, coroutine, 0)`. A context behind its body aborts. -/
def switchContext : Prog (State τ) Unit := do
  let returned ← access fun s => (s.mem.returned, ⟨s.mem, { s.ghost with
      entered := s.ghost.entered + 1
      reentered := s.ghost.reentered || s.mem.returned
      phase := .running t }⟩)
  if returned then .act fun _ => none else runBody t

/-! ### The caller -/

/-- `__sync_fetch_and_add(&coroutine->counter, 2)` of a call -/
def incrementByCall : Prog (State τ) ℕ :=
  onAlive fun s => (s.mem.counter, ⟨{ s.mem with counter := (s.mem.counter + 2) % counterWord },
      { s.ghost with
        calls := s.ghost.calls + 1
        runners := if s.mem.counter = 0 then t :: s.ghost.runners else s.ghost.runners
        last := if s.mem.counter = 0 then some t else s.ghost.last
        phase := if s.mem.counter = 0 then .claimed t else s.ghost.phase
        late := s.ghost.late || (s.mem.finished && decide (s.mem.counter = 0))
        wrapped := s.ghost.wrapped || decide (counterWord ≤ s.mem.counter + 2) }⟩)

/-- The loop of a runner; answers `finished`. -/
def runnerLoop : Prog (State τ) Bool :=
  .loop (fun _ : Unit => do
    switchContext t
    let finished ← loadFinished
    let counter ← decrement fun counter g =>
      { g with
        runners := if counter = 1 ∨ finished then g.runners.erase t else g.runners
        phase := if finished then .disposing t else if counter = 1 then .idle else .claimed t }
    if counter ≠ 1 ∧ finished = false then return .inl () else return .inr finished) ()

/-- The end of a runner that has seen the finish: `free` and `finishCb`. -/
def dispose : Prog (State τ) Unit := do
  let hasFinishCb ← access fun s => (s.mem.hasFinishCb, s)
  access fun s => ((), ⟨{ s.mem with freed := true },
    { s.ghost with frees := t :: s.ghost.frees, phase := .freed t }⟩)
  .act fun s => some ((), ⟨s.mem, { s.ghost with
      finishes := if hasFinishCb then t :: s.ghost.finishes else s.ghost.finishes
      phase := .gone }⟩)

/-- `coroutineCall` -/
def coroutineCall : Prog (State τ) Bool := do
  let finished ← onAlive fun s => (s.mem.finished, s)
  if finished = false then
    let counter ← incrementByCall t
    if counter ≠ 0 then return true
    else
      let finished ← runnerLoop t
      (if finished then dispose t else return ())
      return finished
  else return true

/-- A thread that calls the coroutine, any number of times. -/
def caller : Prog (State τ) Unit :=
  .loop (fun _ : Unit => do
    let _ ← coroutineCall t
    return .inl ()) ()

end Code

end Coroutine

end Asyncio

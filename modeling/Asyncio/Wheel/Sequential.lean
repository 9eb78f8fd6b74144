import Asyncio.Wheel.Grid
import Mathlib.Tactic.IntervalCases

/-!
# The grid, one call at a time

The timeout grid as it works when no two calls overlap. Every compare-and-swap then succeeds, and the
occupancy bits, the pre-clear brackets and the published horizons decide nothing about a link. All
operations are pending, so no link is dropped.

Arms come at any time, also between the visits of one sweep. The clock counts microseconds. A
record is kept of what was accepted, of what each sweep delivered, and of when.
-/

namespace Asyncio

namespace Wheel

/-- `asyncOpListLink` -/
structure Link (α : Type) where
  op : α
  deadlineTick : ℕ

/-- A slot: its chain, and the start of the window it stands for. -/
structure Slot (α : Type) where
  chain : List (Link α)
  baseTick : ℕ

structure Grid (α : Type) where
  slot : ℕ → ℕ → Slot α
  timerCloseCursor : ℕ

variable {α : Type}

/-- Ticks are 64-bit words. -/
def word : ℕ := 2 ^ 64

def Grid.setSlot (g : Grid α) (level index : ℕ) (slot : Slot α) : Grid α :=
  { g with slot := setAt g.slot level index slot }

/-- `timerWheelInit` -/
def timerWheelInit (currentTick : ℕ) : Grid α where
  slot level i :=
    let period := timerWheelPeriod level
    let start := currentTick / period * period + i * timerWheelWidth level
    ⟨[], if start < currentTick then (start + period) % word else start⟩
  timerCloseCursor := currentTick

/-- `timerWheelInsert`; `none` where the publication is refused. -/
def timerWheelInsert (g : Grid α) (link : Link α) (cursor : ℕ) : Option (Grid α) :=
  if _late : link.deadlineTick < cursor then none
  else
    let r := route link.deadlineTick cursor
    let slot := g.slot r.level r.index
    if slot.baseTick = r.expectedBase then
      some (g.setSlot r.level r.index ⟨link :: slot.chain, slot.baseTick⟩)
    else if _bottom : r.level = 0 then none
    else timerWheelInsert g link r.expectedBase
termination_by link.deadlineTick - cursor
decreasing_by
  -- above level zero the drained window began after the hint
  have hr := route_spec (Nat.le_of_not_lt _late)
  have := hr.ahead _bottom
  have := hr.due
  omega

/-- `timerWheelDetach`: the slot reopened for the next rotation, and its chain. -/
def timerWheelDetach (g : Grid α) (level windowStart : ℕ) : Grid α × List (Link α) :=
  let index := slotIndex level windowStart
  let slot := g.slot level index
  if slot.baseTick > windowStart then (g, [])
  else (g.setSlot level index ⟨[], (windowStart + timerWheelPeriod level) % word⟩, slot.chain)

/-- `timerWheelProcessDetached`, with what it times out. -/
def timerWheelProcessDetached (g : Grid α) :
    List (Link α) → ℕ → Grid α × List (Link α)
  | [], _ => (g, [])
  | link :: next, windowStart =>
    match if link.deadlineTick > windowStart then timerWheelInsert g link windowStart else none with
    | some g' => timerWheelProcessDetached g' next windowStart
    | none =>
      let (g', due) := timerWheelProcessDetached g next windowStart
      (g', link :: due)

/-- `timerWheelVisit` -/
def timerWheelVisit (g : Grid α) (level windowStart : ℕ) : Grid α × List (Link α) :=
  let (g', chain) := timerWheelDetach g level windowStart
  timerWheelProcessDetached g' chain windowStart

/-- The levels that `timerWheelSweepTick` visits, in order. -/
def visits (tick : ℕ) : List ℕ :=
  ([3, 2, 1].filter fun level => tick % timerWheelWidth level = 0) ++ [0]

theorem mem_visits {tick level : ℕ} :
    level ∈ visits tick ↔ level < levels ∧ tick % timerWheelWidth level = 0 := by
  have hzero : tick % timerWheelWidth 0 = 0 := Nat.mod_one tick
  simp only [visits, List.mem_append, List.mem_filter, List.mem_cons, List.not_mem_nil, or_false,
    decide_eq_true_eq, levels]
  constructor
  · rintro (⟨rfl | rfl | rfl, h⟩ | rfl) <;> simp_all
  · rintro ⟨hl, h⟩
    interval_cases level <;> simp_all

/-! ### The clock -/

/-- `TIMER_TICK_MICROSECONDS` -/
def tickMicroseconds : ℕ := 125000

/-- `getMonotonicTicks`, of a clock that shows microseconds. -/
def getMonotonicTicks (now : ℕ) : ℕ := now / tickMicroseconds

/-- The last deadline that `opArmTimer` gives. -/
def deadlineLimit : ℕ :=
  (word - 1) / tickMicroseconds + if (word - 1) % tickMicroseconds ≠ 0 then 1 else 0

/-- `op->deadlineTick` in `opArmTimer` -/
def opArmTimer (nowTick timeout : ℕ) : ℕ :=
  let deltaTick := timeout / tickMicroseconds + if timeout % tickMicroseconds ≠ 0 then 1 else 0
  if nowTick ≥ deadlineLimit ∨ deltaTick > deadlineLimit - nowTick then deadlineLimit
  else nowTick + deltaTick

/-! ### Runs -/

structure State (α : Type) where
  grid : Grid α
  /-- The levels that the sweep in progress has not visited yet. -/
  sweep : Option (List ℕ)
  /-- The monotonic clock, in microseconds. -/
  now : ℕ
  /-- The grid was set up from the clock, and every sweep so far was of a tick below the clock's. -/
  punctual : Bool
  accepted : List (Link α)
  /-- What a sweep delivered, with the tick it swept. -/
  delivered : List (Link α × ℕ)
  /-- Every timeout, of a sweep or of a refused arm, with the time. -/
  timedOut : List (Link α × ℕ)

/-- `timerWheelInit` at tick `c`, when the clock shows `now`. -/
def State.initial (c now : ℕ) : State α :=
  ⟨timerWheelInit c, none, now, decide (c ≤ getMonotonicTicks now), [], [], []⟩

/-- `addToTimeoutQueue`: a refused link times out at once. -/
def State.arm (s : State α) (link : Link α) : State α :=
  match timerWheelInsert s.grid link s.grid.timerCloseCursor with
  | some g => { s with grid := g, accepted := link :: s.accepted }
  | none => { s with timedOut := (link, s.now) :: s.timedOut }

def State.visit (s : State α) (level : ℕ) (rest : List ℕ) : State α :=
  let tick := s.grid.timerCloseCursor
  let (g, due) := timerWheelVisit s.grid level tick
  { s with
    grid := g
    sweep := some rest
    delivered := due.map (·, tick) ++ s.delivered
    timedOut := due.map (·, s.now) ++ s.timedOut }

inductive Step : State α → State α → Prop
  /-- The clock is a 64-bit count. -/
  | elapse (s : State α) (now : ℕ) : s.now ≤ now → now < word → Step s { s with now := now }
  | arm (s : State α) (link : Link α) : link.deadlineTick ≤ deadlineLimit → Step s (s.arm link)
  | begin (s : State α) : s.sweep = none → Step s
      { s with
        sweep := some (visits s.grid.timerCloseCursor)
        punctual := s.punctual && decide (s.grid.timerCloseCursor < getMonotonicTicks s.now) }
  | visit (s : State α) (level : ℕ) (rest : List ℕ) : s.sweep = some (level :: rest) →
      Step s (s.visit level rest)
  | confirm (s : State α) : s.sweep = some [] → Step s
      { s with
        sweep := none
        grid := { s.grid with timerCloseCursor := (s.grid.timerCloseCursor + 1) % word } }

end Wheel

end Asyncio

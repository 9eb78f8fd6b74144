import Mathlib.Data.Nat.Log
import Asyncio.Wheel.Window

/-!
# The timeout grid

Four levels of 1024 slots. A slot of level `L` stands for a window of `2 ^ (10 L)` ticks and comes
round every `2 ^ (10 (L + 1))` ticks.

A deadline is routed by its distance from a sweep position. The distance decides the level, the
deadline's window on that level decides the slot. A deadline beyond the grid's range is routed as if
it were the last tick in range.

## Main results

* `Wheel.route_spec` — a routed deadline's window starts at or before the deadline and is not over
  at the sweep position
-/

namespace Asyncio

namespace Wheel

/-- `TIMER_WHEEL_LEVEL_BITS` -/
def levelBits : ℕ := 10

/-- `TIMER_WHEEL_SLOTS` -/
def slots : ℕ := 2 ^ levelBits

/-- `TIMER_WHEEL_LEVELS` -/
def levels : ℕ := 4

/-- `timerWheelWidth` -/
def timerWheelWidth (level : ℕ) : ℕ := 2 ^ (levelBits * level)

/-- `timerWheelPeriod` -/
def timerWheelPeriod (level : ℕ) : ℕ := 2 ^ (levelBits * (level + 1))

/-- `(uint64_t)1 << (TIMER_WHEEL_LEVEL_BITS * TIMER_WHEEL_LEVELS)` -/
def range : ℕ := 2 ^ (levelBits * levels)

/-- The slot of a level whose window holds a tick. -/
def slotIndex (level tick : ℕ) : ℕ := tick / timerWheelWidth level % slots

/-- The start of the window of a level that holds a tick, `tick & ~(width - 1)`. -/
def windowStart (level tick : ℕ) : ℕ := tick / timerWheelWidth level * timerWheelWidth level

/-- A table of the slots, changed in one place. -/
def setAt {β : Type} (f : ℕ → ℕ → β) (level index : ℕ) (x : β) : ℕ → ℕ → β :=
  fun l i => if l = level ∧ i = index then x else f l i

@[simp] theorem setAt_self {β : Type} (f : ℕ → ℕ → β) (level index : ℕ) (x : β) :
    setAt f level index x level index = x := if_pos ⟨rfl, rfl⟩

theorem setAt_of_ne {β : Type} (f : ℕ → ℕ → β) {level index : ℕ} (x : β) {l i : ℕ}
    (h : ¬ (l = level ∧ i = index)) : setAt f level index x l i = f l i := if_neg h

theorem setAt_eq_self {β : Type} (f : ℕ → ℕ → β) (level index : ℕ) :
    setAt f level index (f level index) = f := by
  funext l i
  by_cases h : l = level ∧ i = index
  · obtain ⟨rfl, rfl⟩ := h
    exact setAt_self ..
  · exact setAt_of_ne _ _ h

/-- Where a deadline goes. -/
structure Route where
  level : ℕ
  index : ℕ
  expectedBase : ℕ

/-- The routing of `timerWheelInsert`, for a deadline that is not before the cursor. -/
def route (deadline cursor : ℕ) : Route :=
  let distance := deadline - cursor
  let routeDistance := if distance < range then distance else range - 1
  let routeTick := cursor + routeDistance
  let level := if routeDistance ≠ 0 then Nat.log2 routeDistance / levelBits else 0
  ⟨level, slotIndex level routeTick, windowStart level routeTick⟩

theorem width_pos (level : ℕ) : 0 < timerWheelWidth level := Nat.two_pow_pos _

theorem period_eq (level : ℕ) : timerWheelPeriod level = slots * timerWheelWidth level := by
  rw [timerWheelPeriod, timerWheelWidth, slots, ← Nat.pow_add]
  congr 1
  ring

theorem period_pos (level : ℕ) : 0 < timerWheelPeriod level := Nat.two_pow_pos _

theorem slotIndex_lt (level tick : ℕ) : slotIndex level tick < slots :=
  Nat.mod_lt _ (Nat.two_pow_pos _)

-- sums over the slots must not be evaluated
attribute [irreducible] slots

/-- The residue of the window starts a slot stands for. -/
def residue (level index : ℕ) : ℕ := index * timerWheelWidth level

theorem residue_lt {level index : ℕ} (h : index < slots) :
    residue level index < timerWheelPeriod level := by
  rw [period_eq]
  exact Nat.mul_lt_mul_of_pos_right h (width_pos level)

/-- The next window start of a slot. -/
def nextStart (level index tick : ℕ) : ℕ :=
  Window.next (timerWheelPeriod level) (residue level index) tick

/-- A tick on a window boundary is a start of exactly its slot. -/
theorem mod_period_eq_iff {level index tick : ℕ} (hi : index < slots) :
    tick % timerWheelPeriod level = residue level index ↔
      tick % timerWheelWidth level = 0 ∧ slotIndex level tick = index := by
  have hw := width_pos level
  rw [period_eq, Nat.mul_comm, Nat.mod_mul, slotIndex, residue]
  constructor
  · intro h
    have h0 : tick % timerWheelWidth level = 0 := by
      have := congrArg (· % timerWheelWidth level) h
      simpa using this
    refine ⟨h0, ?_⟩
    rw [h0, Nat.zero_add, Nat.mul_comm] at h
    exact Nat.eq_of_mul_eq_mul_right hw h
  · rintro ⟨h0, rfl⟩
    rw [h0, Nat.zero_add, Nat.mul_comm]

theorem windowStart_mod (level tick : ℕ) : windowStart level tick % timerWheelWidth level = 0 :=
  Nat.mul_mod_left _ _

theorem windowStart_le (level tick : ℕ) : windowStart level tick ≤ tick := Nat.div_mul_le_self _ _

theorem lt_windowStart_add (level tick : ℕ) :
    tick < windowStart level tick + timerWheelWidth level :=
  Nat.lt_div_mul_add (width_pos level)

theorem slotIndex_windowStart (level tick : ℕ) :
    slotIndex level (windowStart level tick) = slotIndex level tick := by
  rw [slotIndex, windowStart, Nat.mul_div_cancel _ (width_pos level), slotIndex]

theorem windowStart_mod_period (level tick : ℕ) :
    windowStart level tick % timerWheelPeriod level = residue level (slotIndex level tick) :=
  (mod_period_eq_iff (slotIndex_lt _ _)).mpr ⟨windowStart_mod _ _, slotIndex_windowStart _ _⟩

/-- What a deadline's route is good for. -/
structure Routed (deadline cursor : ℕ) (r : Route) : Prop where
  level : r.level < levels
  index : r.index < slots
  mod : r.expectedBase % timerWheelPeriod r.level = residue r.level r.index
  /-- The window is not over at the cursor, and comes before the slot does for the second time. -/
  le : cursor ≤ r.expectedBase
  lt : r.expectedBase < cursor + timerWheelPeriod r.level
  due : r.expectedBase ≤ deadline
  /-- Above level zero the window begins after the cursor. -/
  ahead : r.level ≠ 0 → cursor < r.expectedBase
  /-- On level zero the window is the deadline's tick. -/
  tick : r.level = 0 → r.expectedBase = deadline

/-- The level of a distance: the distance is at least the level's width and less than its period. -/
theorem level_spec {d level : ℕ} (hd : d < range)
    (h : level = if d ≠ 0 then Nat.log2 d / levelBits else 0) :
    level < levels ∧ d < timerWheelPeriod level ∧ (level ≠ 0 → timerWheelWidth level ≤ d) := by
  by_cases h0 : d = 0
  · subst h0
    rw [if_neg (by simp)] at h
    subst h
    exact ⟨by decide, period_pos 0, by simp⟩
  rw [if_pos h0] at h
  have hlo : 2 ^ Nat.log2 d ≤ d := Nat.log2_self_le h0
  have hhi : d < 2 ^ (Nat.log2 d + 1) := Nat.lt_log2_self
  have hbits : levelBits * level ≤ Nat.log2 d ∧ Nat.log2 d + 1 ≤ levelBits * (level + 1) := by
    rw [h, levelBits]; omega
  have hlog : Nat.log2 d < levelBits * levels :=
    (Nat.pow_lt_pow_iff_right (by decide)).mp (hlo.trans_lt hd)
  refine ⟨?_, hhi.trans_le (Nat.pow_le_pow_right (by decide) hbits.2), fun _ =>
    (Nat.pow_le_pow_right (by decide) hbits.1).trans hlo⟩
  rw [h]
  exact Nat.div_lt_of_lt_mul hlog

theorem route_spec {deadline cursor : ℕ} (h : cursor ≤ deadline) :
    Routed deadline cursor (route deadline cursor) := by
  let d := if deadline - cursor < range then deadline - cursor else range - 1
  let level := if d ≠ 0 then Nat.log2 d / levelBits else 0
  have hd : d < range ∧ cursor + d ≤ deadline ∧ (cursor + d = deadline ∨ d = range - 1) := by
    have : 0 < range := Nat.two_pow_pos _
    simp only [d]
    split <;> omega
  obtain ⟨hlevel, hperiod, hwidth⟩ : level < levels ∧ d < timerWheelPeriod level ∧
      (level ≠ 0 → timerWheelWidth level ≤ d) := level_spec hd.1 rfl
  have hstart := windowStart_le level (cursor + d)
  have hend := lt_windowStart_add level (cursor + d)
  have hle : cursor ≤ windowStart level (cursor + d) ∧
      (level ≠ 0 → cursor < windowStart level (cursor + d)) := by
    by_cases h0 : level = 0
    · rw [h0]
      simp [windowStart, timerWheelWidth]
    · have := hwidth h0
      omega
  have hlast : d = range - 1 → level + 1 = levels := by
    intro h'
    simp only [level, h']
    decide
  have hexact : level + 1 < levels → cursor + d = deadline := fun h' =>
    hd.2.2.resolve_right fun h'' => by have := hlast h''; omega
  exact
    { level := hlevel
      index := slotIndex_lt _ _
      mod := windowStart_mod_period _ _
      le := hle.1
      lt := hstart.trans_lt (Nat.add_lt_add_left hperiod cursor)
      due := hstart.trans hd.2.1
      ahead := hle.2
      tick := fun (h0 : level = 0) => by
        have := hexact (by rw [h0]; decide)
        change windowStart level (cursor + d) = deadline
        rw [h0, this]
        simp [windowStart, timerWheelWidth] }

/-- A deadline at the cursor is routed to its tick. -/
theorem route_self (c : ℕ) : route c c = ⟨0, slotIndex 0 c, c⟩ := by
  simp [route, show 0 < range from Nat.two_pow_pos _, windowStart, timerWheelWidth]

end Wheel

end Asyncio

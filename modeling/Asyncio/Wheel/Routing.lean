import Asyncio.Wheel.Sequential

/-!
# Routing in 64-bit words

The loop of `timerWheelInsert` with sums and differences that can wrap, over slots that hold anything. Where a
deadline is routed at all, nothing wraps (`routing_eq`).

`timerWheelInsert_routes` says that the loop ends, and what holds in each of its iterations.
-/

namespace Asyncio

namespace Wheel

namespace Words

/-- `x + y` of words. -/
def add (x y : ℕ) : ℕ := (x + y) % word

/-- `x - y` of words. -/
def sub (x y : ℕ) : ℕ := (x + word - y) % word

/-- What an iteration of `timerWheelInsert` computes. -/
structure Routing extends Route where
  distance : ℕ
  routeDistance : ℕ
  routeTick : ℕ
  width : ℕ

/-- The part of an iteration that routes the deadline. -/
def routing (deadline cursor : ℕ) : Routing :=
  let distance := sub deadline cursor
  let routeDistance := if distance < range then distance else range - 1
  let routeTick := add cursor routeDistance
  let level := if routeDistance ≠ 0 then Nat.log2 routeDistance / levelBits else 0
  let width := timerWheelWidth level
  let expectedBase := windowStart level routeTick
  -- the shifted tick becomes an `unsigned`
  let index := routeTick / width % 2 ^ 32 % slots
  ⟨⟨level, index, expectedBase⟩, distance, routeDistance, routeTick, width⟩

/-- An iteration of `timerWheelInsert`: the next cursor, or the answer. `slot` has the heads and the ticks of
the slots; a slot that stays as it was loaded is published into at the first attempt. -/
def iteration (slot : ℕ → ℕ → ℕ × ℕ) (deadline cursor : ℕ) : ℕ ⊕ Bool :=
  if deadline < cursor then .inr false
  else
    let r := routing deadline cursor
    let observed := slot r.level r.index
    if observed.2 = r.expectedBase then .inr true
    else if r.level = 0 then .inr false
    else .inl r.expectedBase

/-- `timerWheelInsert`, for at most `fuel` iterations. -/
def timerWheelInsert (slot : ℕ → ℕ → ℕ × ℕ) (deadline : ℕ) : ℕ → ℕ → Option Bool
  | 0, _ => none
  | fuel + 1, cursor =>
    match iteration slot deadline cursor with
    | .inl cursor => timerWheelInsert slot deadline fuel cursor
    | .inr answer => some answer

variable {slot : ℕ → ℕ → ℕ × ℕ} {deadline cursor next : ℕ}

/-- The distance that is routed. -/
def routeDistance (deadline cursor : ℕ) : ℕ :=
  if deadline - cursor < range then deadline - cursor else range - 1

theorem add_routeDistance_le (h : cursor ≤ deadline) : cursor + routeDistance deadline cursor ≤ deadline := by
  rw [routeDistance]
  split <;> omega

/-- **Nothing wraps.** -/
theorem routing_eq (h : cursor ≤ deadline) (hword : deadline < word) :
    routing deadline cursor =
      ⟨route deadline cursor, deadline - cursor, routeDistance deadline cursor,
        cursor + routeDistance deadline cursor, timerWheelWidth (route deadline cursor).level⟩ := by
  have hsub : sub deadline cursor = deadline - cursor := by
    rw [sub, show deadline + word - cursor = deadline - cursor + word by omega, Nat.add_mod_right,
      Nat.mod_eq_of_lt (by omega)]
  have hadd : add cursor (routeDistance deadline cursor) = cursor + routeDistance deadline cursor :=
    Nat.mod_eq_of_lt ((add_routeDistance_le h).trans_lt hword)
  have hslots : slots ∣ 2 ^ 32 := by
    rw [slots, levelBits]
    decide
  rw [routing, hsub, ← routeDistance, hadd, Nat.mod_mod_of_dvd _ hslots]
  rfl

/-- Within the range, the window has the deadline. -/
theorem window_of_lt (h : cursor ≤ deadline) (hword : deadline < word) (hrange : deadline - cursor < range) :
    let r := routing deadline cursor
    r.expectedBase ≤ r.routeTick ∧ r.routeTick ≤ deadline ∧ deadline < r.expectedBase + r.width := by
  have htick : cursor + routeDistance deadline cursor = deadline := by
    rw [routeDistance, if_pos hrange, Nat.add_sub_cancel' h]
  intro r
  rw [show r = _ from routing_eq h hword, htick, route, ← routeDistance, htick]
  exact ⟨windowStart_le .., le_rfl, lt_windowStart_add ..⟩

/-- An iteration that goes on. -/
theorem iteration_eq_inl (h : iteration slot deadline cursor = .inl next) :
    cursor ≤ deadline ∧ (routing deadline cursor).level ≠ 0 ∧
      next = (routing deadline cursor).expectedBase := by
  unfold iteration at h
  split at h
  · cases h
  · next hlt =>
    dsimp only at h
    split at h
    · cases h
    · split at h
      · cases h
      · next hlevel =>
        cases h
        exact ⟨Nat.not_lt.mp hlt, hlevel, rfl⟩

theorem lt_of_iteration (hword : deadline < word) (h : iteration slot deadline cursor = .inl next) :
    cursor < next ∧ next ≤ deadline := by
  obtain ⟨hle, hlevel, rfl⟩ := iteration_eq_inl h
  have hspec := route_spec hle
  rw [routing_eq hle hword] at hlevel ⊢
  exact ⟨hspec.ahead hlevel, hspec.due⟩

/-- Within the range, an iteration that goes on does so on a lower level. -/
theorem level_lt_of_iteration (hword : deadline < word) (h : iteration slot deadline cursor = .inl next)
    (hrange : deadline - cursor < range) :
    (routing deadline next).level < (routing deadline cursor).level := by
  obtain ⟨hlt, hnext⟩ := lt_of_iteration hword h
  obtain ⟨hle, hlevel, heq⟩ := iteration_eq_inl h
  have hwindow := (window_of_lt hle hword hrange).2.2
  have hinside : deadline - next < range := by omega
  have hlower : (routing deadline next).level =
      if deadline - next ≠ 0 then Nat.log2 (deadline - next) / levelBits else 0 := by
    rw [routing_eq hnext hword, route, if_pos hinside]
  have hwidth := (level_spec hinside hlower).2.2
  refine Nat.lt_of_not_le fun hge => ?_
  have hpow : (routing deadline cursor).width ≤ timerWheelWidth (routing deadline next).level :=
    Nat.pow_le_pow_right Nat.two_pos (Nat.mul_le_mul_left levelBits hge)
  have := hwidth (by omega)
  omega

theorem timerWheelInsert_ends (slot : ℕ → ℕ → ℕ × ℕ) (hword : deadline < word) (cursor : ℕ) :
    ∃ fuel, (timerWheelInsert slot deadline fuel cursor).isSome = true := by
  induction hn : deadline - cursor using Nat.strongRecOn generalizing cursor with
  | _ n ih =>
    cases hstep : iteration slot deadline cursor with
    | inr answer => exact ⟨1, by rw [timerWheelInsert, hstep]; rfl⟩
    | inl next =>
      obtain ⟨hlt, hle⟩ := lt_of_iteration hword hstep
      obtain ⟨fuel, hfuel⟩ := ih (deadline - next) (by omega) next rfl
      exact ⟨fuel + 1, by rwa [timerWheelInsert, hstep]⟩

/-- **The routing loop ends and never wraps**, whatever the slots hold. In each iteration the words are the
numbers, the level and the slot exist, and within the range the window has the deadline. The next iteration
is at a later cursor that is not after the deadline, and within the range on a lower level. -/
theorem timerWheelInsert_routes (slot : ℕ → ℕ → ℕ × ℕ) (deadline cursor : ℕ) (hword : deadline < 2 ^ 64) :
    (∃ fuel, (timerWheelInsert slot deadline fuel cursor).isSome = true) ∧
    ∀ c ≤ deadline, let r := routing deadline c
      r.distance = deadline - c ∧ r.routeTick = c + r.routeDistance ∧ r.routeTick ≤ deadline ∧
      r.level < 4 ∧ r.index < 1024 ∧
      (deadline - c < 2 ^ 40 → r.expectedBase ≤ r.routeTick ∧ r.routeTick ≤ deadline ∧
        deadline < r.expectedBase + r.width) ∧
      ∀ next, iteration slot deadline c = .inl next → c < next ∧ next ≤ deadline ∧
        (deadline - c < 2 ^ 40 → (routing deadline next).level < r.level) := by
  refine ⟨timerWheelInsert_ends slot hword cursor, fun c hc => ?_⟩
  intro r
  have heq : r = _ := routing_eq hc hword
  have hspec := route_spec hc
  have hindex := hspec.index
  rw [slots] at hindex
  refine ⟨by rw [heq], by rw [heq], by rw [heq]; exact add_routeDistance_le hc, by rw [heq]; exact hspec.level,
    by rw [heq]; exact hindex, window_of_lt hc hword, fun next h => ?_⟩
  obtain ⟨hlt, hle⟩ := lt_of_iteration hword h
  exact ⟨hlt, hle, level_lt_of_iteration hword h⟩

/-- A stale cursor, for which the drained window of the first level is taken. -/
theorem timerWheelInsert_routes_stale : iteration (fun _ _ => (0, 1)) 1500 0 = .inl 1024 ∧
    (routing 1500 1024).level < (routing 1500 0).level := by
  have hstep : iteration (fun _ _ => (0, 1)) 1500 0 = .inl 1024 := by decide +kernel
  have hroutes := timerWheelInsert_routes (fun _ _ => (0, 1)) 1500 0 (by decide)
  obtain ⟨-, -, -, -, -, -, hnext⟩ := hroutes.2 0 (by decide)
  exact ⟨hstep, (hnext 1024 hstep).2.2 (by decide)⟩

end Words

end Wheel

end Asyncio

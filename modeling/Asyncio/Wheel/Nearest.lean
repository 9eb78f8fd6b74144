import Asyncio.Wheel.Sequential
import Mathlib.Order.Bounds.Basic

/-!
# The nearest wake

`timerWheelNearestWake` looks for the first tick at which an occupied slot is visited. Each level is passed
in the order of the visits, a word of the bitmap at a time, from the slot whose window starts next; the
first and the last word are the two parts of one word if that slot is in the middle of it.

The bitmap does not change during the call here. Ticks are natural numbers below `word`, and sums are taken
modulo `word`.

## Main results

* `nearestWake_exact` — the answer is the first visit of an occupied slot
-/

namespace Asyncio

namespace Wheel

variable {start level best : ℕ}

/-! ### Visits -/

theorem slots_eq : slots = 1024 := by
  rw [slots]
  rfl

theorem slotIndex_add (level tick k : ℕ) :
    slotIndex level (tick + k * timerWheelWidth level) = (slotIndex level tick + k) % slots := by
  rw [slotIndex, slotIndex, Nat.add_mul_div_right _ _ (width_pos level), Nat.mod_add_mod]

/-- A slot that is visited within the part of a word that is looked at is in that part. -/
theorem exists_bit {visitTick index take i : ℕ} (hmod : visitTick % timerWheelWidth level = 0)
    (hindex : slotIndex level visitTick = index) (htake : take ≤ 64 - index % 64) (hi : i < slots)
    (hle : visitTick ≤ nextStart level i start)
    (hlt : nextStart level i start < visitTick + take * timerWheelWidth level) :
    ∃ k < take, nextStart level i start = visitTick + k * timerWheelWidth level ∧ i = index + k := by
  have hw := width_pos level
  have hresidue : residue level i < timerWheelPeriod level := residue_lt hi
  obtain ⟨hboundary, hslot⟩ := (mod_period_eq_iff hi).mp (Window.next_mod (c := start) hresidue)
  obtain ⟨k, hk⟩ : timerWheelWidth level ∣ nextStart level i start - visitTick :=
    (Nat.modEq_iff_dvd' hle).mp (hmod.trans hboundary.symm)
  have hnext : nextStart level i start = visitTick + k * timerWheelWidth level := by
    rw [Nat.mul_comm]
    omega
  have hlt' : k < take := by
    rw [hnext] at hlt
    exact Nat.lt_of_mul_lt_mul_right (Nat.lt_of_add_lt_add_left hlt)
  refine ⟨k, hlt', hnext, ?_⟩
  have hslot' : slotIndex level (nextStart level i start) = i := hslot
  have hfit := slotIndex_lt level visitTick
  rw [hnext, slotIndex_add, hindex] at hslot'
  rw [slots_eq] at hslot' hfit
  rw [hindex] at hfit
  rw [Nat.mod_eq_of_lt (by omega)] at hslot'
  exact hslot'.symm

/-- Where the pass over a level is. -/
structure Position (start level : ℕ) (x : ℕ × ℕ × ℕ) : Prop where
  mod : x.2.1 % timerWheelWidth level = 0
  index : slotIndex level x.2.1 = x.1
  rest : start + timerWheelPeriod level ≤ x.2.1 + x.2.2 * timerWheelWidth level

theorem Position.next {index visitTick remaining take : ℕ}
    (h : Position start level (index, visitTick, remaining)) (htake : take ≤ remaining) :
    Position start level ((index + take) % slots, visitTick + take * timerWheelWidth level,
      remaining - take) where
  mod := by simpa using h.mod
  index := by rw [slotIndex_add, h.index]
  rest := by
    have hmul : take * timerWheelWidth level + (remaining - take) * timerWheelWidth level =
        remaining * timerWheelWidth level := by rw [← Nat.add_mul, Nat.add_sub_cancel' htake]
    have hrest : start + timerWheelPeriod level ≤
        visitTick + remaining * timerWheelWidth level := h.rest
    simp only
    omega

/-- The first boundary of a level from `start` on. -/
theorem boundary_spec (level start : ℕ) :
    Position start level (slotIndex level (windowStart level (start + timerWheelWidth level - 1)),
      windowStart level (start + timerWheelWidth level - 1), slots) where
  mod := windowStart_mod _ _
  index := rfl
  rest := by
    have := lt_windowStart_add level (start + timerWheelWidth level - 1)
    have := width_pos level
    rw [period_eq]
    simp only
    omega

/-- No window of this level or a higher one starts between `start` and the boundary. -/
theorem boundary_le {l i : ℕ} (hl : level ≤ l) (hi : i < slots) :
    windowStart level (start + timerWheelWidth level - 1) ≤ nextStart l i start := by
  have hw := width_pos level
  have hresidue : residue l i < timerWheelPeriod l := residue_lt hi
  obtain ⟨hboundary, -⟩ := (mod_period_eq_iff hi).mp (Window.next_mod (c := start) hresidue)
  have hdvd : timerWheelWidth level ∣ timerWheelWidth l :=
    Nat.pow_dvd_pow 2 (Nat.mul_le_mul_left _ hl)
  obtain ⟨q, hq⟩ := hdvd.trans (Nat.dvd_of_mod_eq_zero hboundary)
  have hle : start ≤ nextStart l i start := Window.le_next _ _ _
  have hq' : nextStart l i start = timerWheelWidth level * q := hq
  rw [hq'] at hle ⊢
  unfold windowStart
  rw [Nat.mul_comm]
  refine Nat.mul_le_mul_left _ ?_
  rw [← Nat.lt_succ_iff, Nat.div_lt_iff_lt_mul hw, Nat.succ_mul, Nat.mul_comm q]
  omega

/-- The next window start of a slot is the least one. -/
theorem isLeast_nextStart {index : ℕ} (hi : index < slots) (level start : ℕ) :
    IsLeast {t | start ≤ t ∧ t % timerWheelWidth level = 0 ∧ slotIndex level t = index}
      (nextStart level index start) := by
  have hresidue : residue level index < timerWheelPeriod level := residue_lt hi
  refine ⟨⟨Window.le_next _ _ _, (mod_period_eq_iff hi).mp (Window.next_mod hresidue)⟩, ?_⟩
  rintro t ⟨hle, hslot⟩
  have hmono := Window.next_mono hresidue hle
  rwa [Window.next_self hresidue ((mod_period_eq_iff hi).mpr hslot)] at hmono

/-- The slot `k` places after the one that is visited at `visitTick`. -/
theorem nextStart_eq {index visitTick remaining k : ℕ}
    (hx : Position start level (index, visitTick, remaining)) (hk : index + k < slots)
    (hle : start ≤ visitTick)
    (hlt : visitTick + k * timerWheelWidth level < start + timerWheelPeriod level) :
    nextStart level (index + k) start = visitTick + k * timerWheelWidth level := by
  have hslot : slotIndex level (visitTick + k * timerWheelWidth level) = index + k := by
    have hindex : slotIndex level visitTick = index := hx.index
    rw [slotIndex_add, hindex, Nat.mod_eq_of_lt hk]
  have hmod : (visitTick + k * timerWheelWidth level) % timerWheelWidth level = 0 := by
    have hstart : visitTick % timerWheelWidth level = 0 := hx.mod
    rw [Nat.add_mul_mod_self_right, hstart]
  exact (Window.eq_next (residue_lt hk) ((mod_period_eq_iff hk).mpr ⟨hmod, hslot⟩) (by omega) hlt).symm

/-! ### Code -/

/-- `timerWheel.occupancy` -/
abbrev Bitmap := ℕ → ℕ → BitVec 64

/-- The bit of a slot, as `timerWheelIsOccupied` tests it. -/
def Bitmap.bit (occupancy : Bitmap) (level index : ℕ) : Bool :=
  (occupancy level (index / 64)).getLsbD (index % 64)

/-- `lowestBitIndex64` -/
def lowestBitIndex64 (value : BitVec 64) : ℕ := value.ctz.toNat

/-- The bits of a word that are looked at. -/
def scanMask (take bitPosition : ℕ) : BitVec 64 :=
  if take = 64 then ~~~0#64 else ((1#64 <<< take) - 1#64) <<< bitPosition

/-- The inner loop of `timerWheelNearestWake`; answers the new `best`. -/
def scanWords (occupancy : Bitmap) (level best : ℕ) : ℕ → ℕ → ℕ → ℕ → ℕ
  | 0, _, _, _ => best
  | fuel + 1, slotIndex, visitTick, remaining =>
    if remaining = 0 then best
    else if (visitTick + 1) % word ≥ best then best
    else
      let bitPosition := slotIndex % 64
      let take := if 64 - bitPosition > remaining then remaining else 64 - bitPosition
      let hit := occupancy level (slotIndex / 64) &&& scanMask take bitPosition
      if hit ≠ 0#64 then
        let candidate :=
          (visitTick + (lowestBitIndex64 hit - bitPosition) * timerWheelWidth level + 1) % word
        if candidate < best then candidate else best
      else
        scanWords occupancy level best fuel ((slotIndex + take) % slots)
          ((visitTick + take * timerWheelWidth level) % word) (remaining - take)

/-- The loop of `timerWheelNearestWake` over the levels that are left. -/
def nearestFrom (occupancy : Bitmap) (start : ℕ) : ℕ → ℕ → ℕ → ℕ
  | 0, _, best => best
  | left + 1, level, best =>
    let boundary := windowStart level ((start + timerWheelWidth level - 1) % word)
    if (boundary + 1) % word ≥ best then best
    else
      nearestFrom occupancy start left (level + 1)
        (scanWords occupancy level best slots (slotIndex level boundary) boundary slots)

/-- `timerWheelNearestWake` -/
def timerWheelNearestWake (occupancy : Bitmap) (start : ℕ) : ℕ :=
  nearestFrom occupancy start levels 0 (word - 1)

/-! ### A word -/

theorem getLsbD_scanMask {take bitPosition k : ℕ} (htake : bitPosition + take ≤ 64) (hk : k < 64) :
    (scanMask take bitPosition).getLsbD k = decide (bitPosition ≤ k ∧ k < bitPosition + take) := by
  rw [scanMask]
  by_cases hall : take = 64
  · rw [if_pos hall, BitVec.getLsbD_not, BitVec.getLsbD_zero]
    simp only [hk, decide_true, Bool.not_false, Bool.true_and]
    exact (decide_eq_true (by omega)).symm
  have hones : (1#64 <<< take) - 1#64 = BitVec.ofNat 64 (2 ^ take - 1) := by
    refine BitVec.eq_of_toNat_eq ?_
    have hlt : 2 ^ take < 2 ^ 64 := Nat.pow_lt_pow_right (by decide) (by omega)
    have hpos : 0 < 2 ^ take := Nat.two_pow_pos take
    simp only [BitVec.toNat_sub, BitVec.toNat_shiftLeft, BitVec.toNat_ofNat, Nat.shiftLeft_eq]
    omega
  rw [if_neg hall, hones, BitVec.getLsbD_shiftLeft, BitVec.getLsbD_ofNat, Nat.testBit_two_pow_sub_one]
  rw [Bool.eq_iff_iff]
  simp only [Bool.and_eq_true, decide_eq_true_iff, Bool.not_eq_true', decide_eq_false_iff_not]
  omega

/-- Among the bits that are looked at, none is set, or the first one that is set is found. -/
theorem hit_cases (bits : BitVec 64) {take bitPosition : ℕ} (htake : bitPosition + take ≤ 64) :
    (bits &&& scanMask take bitPosition = 0#64 ∧ ∀ k < take, bits.getLsbD (bitPosition + k) = false) ∨
      (bits &&& scanMask take bitPosition ≠ 0#64 ∧
        ∃ k < take, lowestBitIndex64 (bits &&& scanMask take bitPosition) = bitPosition + k ∧
          bits.getLsbD (bitPosition + k) = true ∧ ∀ k' < k, bits.getLsbD (bitPosition + k') = false) := by
  have hbit {k : ℕ} (hk : k < take) : (bits &&& scanMask take bitPosition).getLsbD (bitPosition + k) =
      bits.getLsbD (bitPosition + k) := by
    rw [BitVec.getLsbD_and, getLsbD_scanMask htake (by omega), decide_eq_true (by omega), Bool.and_true]
  by_cases hhit : bits &&& scanMask take bitPosition = 0#64
  · refine .inl ⟨hhit, fun k hk => ?_⟩
    rw [← hbit hk, hhit, BitVec.getLsbD_zero]
  · refine .inr ⟨hhit, ?_⟩
    have hlowest := BitVec.getLsbD_true_ctz_of_ne_zero hhit
    have hlt : (bits &&& scanMask take bitPosition).ctz.toNat < 64 :=
      BitVec.lt_of_getLsbD hlowest
    have hrange := hlowest
    rw [BitVec.getLsbD_and, getLsbD_scanMask htake hlt, Bool.and_eq_true, decide_eq_true_iff] at hrange
    obtain ⟨-, hge, hle⟩ := hrange
    obtain ⟨k, hk⟩ := Nat.exists_eq_add_of_le hge
    rw [hk] at hlowest hle
    have hkt : k < take := by omega
    refine ⟨k, hkt, hk, ?_, fun k' hk' => ?_⟩
    · rw [← hbit hkt]
      exact hlowest
    · rw [← hbit (by omega)]
      exact BitVec.getLsbD_false_of_lt_ctz (by omega)

/-! ### A level -/

/-- `wake` is the least of `best` and the wakes for the occupied slots of a level. -/
structure Scanned (occupancy : Bitmap) (start level best wake : ℕ) : Prop where
  le : wake ≤ best
  lower : ∀ i < slots, occupancy.bit level i = true → wake ≤ nextStart level i start + 1
  attained : wake = best ∨ ∃ i < slots, occupancy.bit level i = true ∧ wake = nextStart level i start + 1

/-- The pass over a level is at `visitTick`, and found nothing before. -/
structure Passing (occupancy : Bitmap) (start level index visitTick remaining : ℕ) : Prop
    extends Position start level (index, visitTick, remaining) where
  start_le : start ≤ visitTick
  end_lt : visitTick + remaining * timerWheelWidth level <
    start + timerWheelWidth level + timerWheelPeriod level
  clear : ∀ i < slots, occupancy.bit level i = true → visitTick ≤ nextStart level i start

variable {occupancy : Bitmap}

theorem Passing.nextStart_add {index visitTick remaining k : ℕ}
    (h : Passing occupancy start level index visitTick remaining) (hk : k < 64 - index % 64)
    (hremaining : k < remaining) :
    index + k < slots ∧ nextStart level (index + k) start = visitTick + k * timerWheelWidth level ∧
      occupancy.bit level (index + k) = (occupancy level (index / 64)).getLsbD (index % 64 + k) := by
  have hindex : slotIndex level visitTick = index := h.index
  have hlt := slotIndex_lt level visitTick
  have hw := width_pos level
  rw [hindex, slots_eq] at hlt
  have hslot : index + k < slots := by
    rw [slots_eq]
    omega
  refine ⟨hslot, nextStart_eq h.toPosition hslot h.start_le ?_, ?_⟩
  · have hmul : (k + 1) * timerWheelWidth level ≤ remaining * timerWheelWidth level :=
      Nat.mul_le_mul_right _ hremaining
    rw [Nat.add_mul, Nat.one_mul] at hmul
    have hend := h.end_lt
    omega
  · rw [Bitmap.bit, show (index + k) / 64 = index / 64 by omega,
      show (index + k) % 64 = index % 64 + k by omega]

/-- The part of a word that is looked at has no bit set. -/
theorem Passing.next {index visitTick remaining take : ℕ}
    (h : Passing occupancy start level index visitTick remaining) (htake : take ≤ 64 - index % 64)
    (hremaining : take ≤ remaining)
    (hclear : ∀ k < take, (occupancy level (index / 64)).getLsbD (index % 64 + k) = false) :
    Passing occupancy start level ((index + take) % slots) (visitTick + take * timerWheelWidth level)
      (remaining - take) where
  toPosition := h.toPosition.next hremaining
  start_le := Nat.le_add_right_of_le h.start_le
  end_lt := by
    have hmul : take * timerWheelWidth level + (remaining - take) * timerWheelWidth level =
        remaining * timerWheelWidth level := by rw [← Nat.add_mul, Nat.add_sub_cancel' hremaining]
    have hend := h.end_lt
    omega
  clear i hi hbit := by
    by_contra hlt
    obtain ⟨k, hk, -, rfl⟩ := exists_bit h.mod h.index htake hi (h.clear i hi hbit)
      (Nat.lt_of_not_le hlt)
    rw [(h.nextStart_add (by omega) (by omega)).2.2, hclear k hk] at hbit
    cases hbit

theorem Passing.lt_word {index visitTick remaining : ℕ}
    (h : Passing occupancy start level index visitTick remaining) (hlevel : level < levels)
    (hstart : start + 2 ^ 41 < 2 ^ 64) :
    visitTick + remaining * timerWheelWidth level + 1 < word := by
  have hend := h.end_lt
  have hwidth : timerWheelWidth level ≤ 2 ^ 30 := by
    rw [timerWheelWidth, levelBits]
    exact Nat.pow_le_pow_right Nat.two_pos (by rw [levels] at hlevel; omega)
  have hperiod : timerWheelPeriod level ≤ 2 ^ 40 := by
    rw [timerWheelPeriod, levelBits]
    exact Nat.pow_le_pow_right Nat.two_pos (by rw [levels] at hlevel; omega)
  rw [word]
  omega

/-- **The pass over a level.** -/
theorem scanned_scanWords (hlevel : level < levels) (hstart : start + 2 ^ 41 < 2 ^ 64) (best : ℕ)
    {fuel index visitTick remaining : ℕ} (hfuel : remaining ≤ fuel)
    (h : Passing occupancy start level index visitTick remaining) :
    Scanned occupancy start level best
      (scanWords occupancy level best fuel index visitTick remaining) := by
  induction fuel generalizing index visitTick remaining with
  | zero =>
    obtain rfl : remaining = 0 := Nat.le_zero.mp hfuel
    refine ⟨le_rfl, fun i hi hbit => ?_, .inl rfl⟩
    have hclear := h.clear i hi hbit
    have hrest : start + timerWheelPeriod level ≤ visitTick + 0 * timerWheelWidth level := h.rest
    have hlt : nextStart level i start < start + timerWheelPeriod level :=
      Window.next_lt (period_pos level)
    omega
  | succ fuel ih =>
    rw [scanWords]
    by_cases hend : remaining = 0
    · rw [if_pos hend]
      refine ⟨le_rfl, fun i hi hbit => ?_, .inl rfl⟩
      have hclear := h.clear i hi hbit
      have hrest : start + timerWheelPeriod level ≤ visitTick + remaining * timerWheelWidth level := h.rest
      have hlt : nextStart level i start < start + timerWheelPeriod level :=
        Window.next_lt (period_pos level)
      rw [hend] at hrest
      omega
    have hword := h.lt_word hlevel hstart
    have hvisit : (visitTick + 1) % word = visitTick + 1 := Nat.mod_eq_of_lt (by omega)
    rw [if_neg hend, hvisit]
    by_cases hbest : visitTick + 1 ≥ best
    · rw [if_pos hbest]
      refine ⟨le_rfl, fun i hi hbit => ?_, .inl rfl⟩
      have hclear := h.clear i hi hbit
      omega
    rw [if_neg hbest]
    obtain ⟨take, htake⟩ : ∃ take,
        take = if 64 - index % 64 > remaining then remaining else 64 - index % 64 := ⟨_, rfl⟩
    have hfit : 0 < take ∧ take ≤ 64 - index % 64 ∧ take ≤ remaining := by
      rw [htake]
      split <;> omega
    obtain ⟨hpos, hfit, hremaining⟩ := hfit
    dsimp only
    rw [← htake]
    obtain ⟨hzero, hclear⟩ | ⟨hhit, k, hk, hlowest, hbit, hfirst⟩ :=
      hit_cases (occupancy level (index / 64)) (show index % 64 + take ≤ 64 by omega)
    · have hmul : take * timerWheelWidth level ≤ remaining * timerWheelWidth level :=
        Nat.mul_le_mul_right _ hremaining
      rw [if_neg (not_not.mpr hzero), Nat.mod_eq_of_lt (show visitTick + take * timerWheelWidth level < word by omega)]
      exact ih (by omega) (h.next hfit hremaining hclear)
    · have hmul : k * timerWheelWidth level ≤ remaining * timerWheelWidth level :=
        Nat.mul_le_mul_right _ (by omega)
      obtain ⟨hslot, hnext, hslotBit⟩ := h.nextStart_add (show k < 64 - index % 64 by omega) (by omega)
      rw [if_pos hhit, hlowest, Nat.add_sub_cancel_left,
        Nat.mod_eq_of_lt (show visitTick + k * timerWheelWidth level + 1 < word by omega), ← hnext]
      -- the slots before the first one that is set are clear
      have hpassing := h.next (show k ≤ 64 - index % 64 by omega) (by omega) hfirst
      have hlower (i : ℕ) (hi : i < slots) (hbit : occupancy.bit level i = true) :
          nextStart level (index + k) start ≤ nextStart level i start := by
        rw [hnext]
        exact hpassing.clear i hi hbit
      split
      · next hlt =>
        refine ⟨hlt.le, fun i hi hbit => ?_, .inr ⟨index + k, hslot, hslotBit.trans hbit, rfl⟩⟩
        exact Nat.succ_le_succ (hlower i hi hbit)
      · next hlt =>
        refine ⟨le_rfl, fun i hi hbit => ?_, .inl rfl⟩
        have := hlower i hi hbit
        omega

/-- The pass begins at the first boundary. -/
theorem passing_boundary (occupancy : Bitmap) (start level : ℕ) :
    Passing occupancy start level (slotIndex level (windowStart level (start + timerWheelWidth level - 1)))
      (windowStart level (start + timerWheelWidth level - 1)) slots where
  toPosition := boundary_spec level start
  start_le := by
    have hlt := lt_windowStart_add level (start + timerWheelWidth level - 1)
    have hw := width_pos level
    omega
  end_lt := by
    have hle := windowStart_le level (start + timerWheelWidth level - 1)
    have hw := width_pos level
    rw [period_eq]
    omega
  clear i hi _ := boundary_le (Nat.le_refl level) hi

/-! ### All levels -/

/-- The occupied slots of the levels from `level` on. -/
def Bitmap.Occupied (occupancy : Bitmap) (level i : ℕ) : Prop :=
  level < levels ∧ i < slots ∧ occupancy.bit level i = true

/-- `wake` is the least of `best` and the wakes for the occupied slots from `level` on. -/
structure Nearest (occupancy : Bitmap) (start level best wake : ℕ) : Prop where
  le : wake ≤ best
  lower : ∀ l i, level ≤ l → occupancy.Occupied l i → wake ≤ nextStart l i start + 1
  attained : wake = best ∨ ∃ l i, occupancy.Occupied l i ∧ wake = nextStart l i start + 1

theorem nearest_nearestFrom (hstart : start + 2 ^ 41 < 2 ^ 64) {left : ℕ} (hleft : level + left = levels)
    (best : ℕ) :
    Nearest occupancy start level best (nearestFrom occupancy start left level best) := by
  induction left generalizing level best with
  | zero =>
    refine ⟨le_rfl, fun l i hl h => ?_, .inl rfl⟩
    have := h.1
    omega
  | succ left ih =>
    have hlevel : level < levels := by omega
    have hpassing := passing_boundary occupancy start level
    have hword := hpassing.lt_word hlevel hstart
    have hw := width_pos level
    have hlt := lt_windowStart_add level (start + timerWheelWidth level - 1)
    have hslots : timerWheelWidth level ≤ slots * timerWheelWidth level :=
      Nat.le_mul_of_pos_left _ (by rw [slots_eq]; omega)
    rw [nearestFrom, Nat.mod_eq_of_lt (show start + timerWheelWidth level - 1 < word by omega),
      Nat.mod_eq_of_lt (show windowStart level (start + timerWheelWidth level - 1) + 1 < word by omega)]
    by_cases hbest : windowStart level (start + timerWheelWidth level - 1) + 1 ≥ best
    · -- the boundaries of the levels above are not before this one
      rw [if_pos hbest]
      refine ⟨le_rfl, fun l i hl h => ?_, .inl rfl⟩
      have hboundary : windowStart level (start + timerWheelWidth level - 1) ≤ nextStart l i start :=
        boundary_le hl h.2.1
      omega
    · rw [if_neg hbest]
      have hscan := scanned_scanWords hlevel hstart best (Nat.le_refl slots) hpassing
      have hrest := ih (show level + 1 + left = levels by omega)
        (scanWords occupancy level best slots
          (slotIndex level (windowStart level (start + timerWheelWidth level - 1)))
          (windowStart level (start + timerWheelWidth level - 1)) slots)
      refine ⟨hrest.le.trans hscan.le, fun l i hl h => ?_, ?_⟩
      · by_cases heq : l = level
        · subst heq
          exact hrest.le.trans (hscan.lower i h.2.1 h.2.2)
        · exact hrest.lower l i (by omega) h
      · obtain hattained | hattained := hrest.attained
        · rw [hattained]
          obtain hbest | ⟨i, hi, hbit, hwake⟩ := hscan.attained
          · exact .inl hbest
          · exact .inr ⟨level, i, ⟨hlevel, hi, hbit⟩, hwake⟩
        · exact .inr hattained

/-- The ticks at which a loop has to wake for the occupied slots. -/
def wakes (occupancy : Bitmap) (start : ℕ) : Set ℕ :=
  {wake | ∃ level i t, occupancy.Occupied level i ∧
    IsLeast {t | start ≤ t ∧ t % 2 ^ (10 * level) = 0 ∧ t / 2 ^ (10 * level) % 1024 = i} t ∧ wake = t + 1}

theorem isLeast_visit {index : ℕ} (hi : index < slots) (level start : ℕ) :
    IsLeast {t | start ≤ t ∧ t % 2 ^ (10 * level) = 0 ∧ t / 2 ^ (10 * level) % 1024 = index}
      (nextStart level index start) := by
  have hleast := isLeast_nextStart hi level start
  simp only [slotIndex, slots_eq] at hleast
  exact hleast

theorem mem_wakes {occupancy : Bitmap} {start wake : ℕ} : wake ∈ wakes occupancy start ↔
    ∃ level i, occupancy.Occupied level i ∧ wake = nextStart level i start + 1 := by
  constructor
  · rintro ⟨level, i, t, hoccupied, hleast, rfl⟩
    exact ⟨level, i, hoccupied,
      congrArg (· + 1) (hleast.unique (isLeast_visit hoccupied.2.1 level start))⟩
  · rintro ⟨level, i, hoccupied, rfl⟩
    exact ⟨level, i, _, hoccupied, isLeast_visit hoccupied.2.1 level start, rfl⟩

/-- **The nearest wake is exact.** Whatever the bitmap, the answer is the first tick after the visit of an
occupied slot, and `UINT64_MAX` if and only if no slot is occupied. -/
theorem nearestWake_exact (occupancy : Bitmap) (start : ℕ) (hstart : start + 2 ^ 41 < 2 ^ 64) :
    ((∃ level i, occupancy.Occupied level i) →
        IsLeast (wakes occupancy start) (timerWheelNearestWake occupancy start)) ∧
      (timerWheelNearestWake occupancy start = 2 ^ 64 - 1 ↔ ¬∃ level i, occupancy.Occupied level i) := by
  have hnearest : Nearest occupancy start 0 (word - 1) (timerWheelNearestWake occupancy start) :=
    nearest_nearestFrom hstart rfl (word - 1)
  -- a slot is visited before the end of time
  have hbefore {level i : ℕ} (h : occupancy.Occupied level i) :
      nextStart level i start + 1 < word - 1 := by
    have hlt : nextStart level i start < start + timerWheelPeriod level :=
      Window.next_lt (period_pos level)
    have hperiod : timerWheelPeriod level ≤ 2 ^ 40 := by
      have hlevel := h.1
      rw [levels] at hlevel
      rw [timerWheelPeriod, levelBits]
      exact Nat.pow_le_pow_right Nat.two_pos (by omega)
    rw [word]
    omega
  refine ⟨?_, ?_⟩
  · rintro ⟨level, i, h⟩
    refine ⟨?_, fun wake hwake => ?_⟩
    · obtain hnone | ⟨l, i', h', hwake⟩ := hnearest.attained
      · have hle := hnearest.lower level i (Nat.zero_le _) h
        have hlt := hbefore h
        omega
      · exact mem_wakes.mpr ⟨l, i', h', hwake⟩
    · obtain ⟨l, i', h', rfl⟩ := mem_wakes.mp hwake
      exact hnearest.lower l i' (Nat.zero_le _) h'
  · constructor
    · rintro heq ⟨level, i, h⟩
      have hle := hnearest.lower level i (Nat.zero_le _) h
      have hlt := hbefore h
      rw [heq, word] at *
      omega
    · intro hnone
      obtain hattained | ⟨l, i, h, -⟩ := hnearest.attained
      · exact hattained
      · exact absurd ⟨l, i, h⟩ hnone

/-- One bit of the second level, behind the first boundary: the pass goes round. -/
theorem nearestWake_wraps :
    IsLeast (wakes (fun level word => if level = 1 ∧ word = 0 then 1#64 else 0#64) 5000)
      (timerWheelNearestWake (fun level word => if level = 1 ∧ word = 0 then 1#64 else 0#64) 5000) :=
  (nearestWake_exact _ 5000 (by decide)).1 ⟨1, 0, by decide, by rw [slots_eq]; decide, by decide⟩

end Wheel

end Asyncio

import Asyncio.Timers.Invariant

/-!
# The other changes of the grid's state

One lemma for each kind of change that moves no link: how a publication is announced, how a visitor
clears a bit under a bracket, how time passes, and how loops go to sleep and wake.
-/

namespace Asyncio

namespace Timers

open Concurrent Wheel Function

variable {ℓ τ : Type} {n : ℕ} {role : τ → Option (Fin n)} {c₀ : ℕ} {t : τ} {s : State ℓ τ n}

namespace Inv

/-! ### Records -/

theorem refuse (h : Inv role c₀ s) {deadline : ℕ}
    (hlate : deadline < s.mem.timerCloseCursor ∨ ∃ d ∈ s.ghost.drained,
      d.level = 0 ∧ d.index = slotIndex 0 deadline ∧ d.baseTick = deadline) :
    Keeps role c₀ t s ⟨s.mem, s.ghost.refuse deadline⟩ :=
  ⟨{ h with refusedLate := List.forall_mem_cons.mpr ⟨hlate, h.refusedLate⟩ }, { Guar.refl s with }⟩

theorem timeOut (h : Inv role c₀ s) {deadline : ℕ} (hover : deadline < getMonotonicTicks s.mem.now):
    Keeps role c₀ t s ⟨s.mem, s.ghost.timeOut deadline s.mem.now⟩ :=
  ⟨{ h with timeoutsOver := List.forall_mem_cons.mpr ⟨hover, h.timeoutsOver⟩ },
    { Guar.refl s with }⟩

/-! ### Time -/

/-- The tick at the cursor is confirmed once all its windows were drained. -/
theorem confirm (h : Inv role c₀ s) (hover : s.mem.timerCloseCursor < getMonotonicTicks s.mem.now)
    (hvisited : ∀ level < levels, ∀ index < slots,
      s.mem.timerCloseCursor % timerWheelPeriod level = residue level index →
      s.mem.timerCloseCursor < s.mem.high level index) :
    Keeps role c₀ t s ⟨{ s.mem with timerCloseCursor := s.mem.timerCloseCursor + 1 }, s.ghost⟩ := by
  refine ⟨{ h with
    lower := fun level hl index hi => ?_
    upper := fun level hl index hi => ?_
    started := h.started.trans (Nat.le_succ _)
    trails := hover
    refusedLate := fun deadline hd => (h.refusedLate deadline hd).imp_left fun hlt =>
      hlt.trans (Nat.lt_succ_self _) }, { Guar.refl s with cursor := Nat.le_succ _ }⟩
  · have hi' : residue level index < timerWheelPeriod level := residue_lt hi
    by_cases hmod : s.mem.timerCloseCursor % timerWheelPeriod level = residue level index
    · simp only [nextStart, Window.next_succ_self hi' hmod]
      have hlt := hvisited level hl index hi hmod
      exact (Window.eq_or_add_le hmod (h.mod level hl index hi) hlt.le).resolve_left hlt.ne'
    · simp only [nextStart, Window.next_succ_of_ne hi' hmod]
      exact h.lower level hl index hi
  · exact (h.upper level hl index hi).trans (Window.next_mono (residue_lt hi) (Nat.le_succ _))

theorem elapse (h : Inv role c₀ s) {now : ℕ} (hle : s.mem.now ≤ now) (hlt : now < word) :
    Keeps role c₀ t s ⟨{ s.mem with now := now }, s.ghost⟩ := by
  have hticks : getMonotonicTicks s.mem.now ≤ getMonotonicTicks now := Nat.div_le_div_right hle
  exact ⟨{ h with
    trails := h.trails.trans hticks
    clock := hlt
    drainedOver := fun d hd => (h.drainedOver d hd).trans_le hticks },
    { Guar.refl s with now := hle }⟩

/-! ### Sleepers -/

theorem ring (h : Inv role c₀ s) :
    Keeps role c₀ t s ⟨{ s.mem with doorbell := true }, s.ghost⟩ :=
  ⟨{ h with settled := fun _ _ _ _ _ => .inl rfl }, { Guar.refl s with
      duty := fun _ _ _ hd => ⟨hd, rfl, rfl, rfl, fun _ h => h, fun _ => .inl rfl⟩ }⟩

/-- What a step of a loop's own thread has to leave covered. -/
theorem of_covered {s' : State ℓ τ n} (h : Inv role c₀ s) (hplace : s'.ghost.place = s.ghost.place)
    (hduty : s'.ghost.duty = s.ghost.duty) (hstage : s'.ghost.stage = s.ghost.stage)
    (hdeadline : s'.mem.deadlineTick = s.mem.deadlineTick)
    (hlate : ∀ j link, s'.ghost.late j link = true → s.ghost.late j link = true)
    (hcovered : ∀ link, s.ghost.place link ≠ .pool → Covered s link → Covered s' link) :
    ∀ u, u ≠ t → ∀ link, s'.ghost.duty u = some link → s.ghost.duty u = some link ∧
      s'.ghost.place link = s.ghost.place link ∧ s'.ghost.stage link = s.ghost.stage link ∧
      s'.mem.deadlineTick link = s.mem.deadlineTick link ∧
      (∀ j, s'.ghost.late j link = true → s.ghost.late j link = true) ∧
      (Covered s link → Covered s' link) := by
  intro u _ link hd
  rw [hduty] at hd
  obtain ⟨-, level, index, hp⟩ := h.dutyParked u link hd
  exact ⟨hd, congrFun hplace link, congrFun hstage link, congrFun hdeadline link,
    fun j => hlate j link, hcovered link (by simp [hp])⟩

variable {j : Fin n}

/-- A loop publishes that it goes to sleep, for good as yet, or that it is awake. -/
theorem renew (h : Inv role c₀ s) (hj : role t = some j) {wake : ℕ}
    (hregistered : wake ≠ awake → s.ghost.registered j = true) :
    Keeps role c₀ t s ⟨s.mem.setWake j wake, s.ghost.renew j⟩ := by
  have hmine : ∀ link, (s.ghost.renew j).late j link = false := by simp [Ghost.renew]
  have hothers : ∀ j', j' ≠ j → (s.ghost.renew j).late j' = s.ghost.late j' :=
    fun j' hne => update_of_ne hne _ _
  have hwake : ∀ j', j' ≠ j → (s.mem.setWake j wake).wakeTick j' = s.mem.wakeTick j' :=
    fun j' hne => update_of_ne hne _ _
  have hasleep : ∀ {j'}, (s.ghost.renew j).asleep j' = true → j' ≠ j ∧ s.ghost.asleep j' = true := by
    intro j' hj'
    have hne : j' ≠ j := by rintro rfl; simp [Ghost.renew] at hj'
    exact ⟨hne, by simpa [Ghost.renew, hne] using hj'⟩
  have hcovered : ∀ link, Covered s link → Covered ⟨s.mem.setWake j wake, s.ghost.renew j⟩ link := by
    rintro link (hbell | ⟨j', hr, hc⟩ | hnone)
    · exact .inl hbell
    · refine .inr (.inl ⟨j', hr, ?_⟩)
      by_cases hne : j' = j
      · exact .inr (.inl (hne ▸ hmine link))
      · simpa [Ghost.renew, Mem.setWake, hne] using hc
    · exact .inr (.inr hnone)
  constructor
  · exact
      { h with
        settled := fun link l i hp hs => hcovered link (h.settled link l i hp hs)
        present := fun j' hj' => by
          by_cases hne : j' = j
          · subst hne
            exact hregistered fun heq => hj' ((update_self ..).trans heq)
          · exact h.present j' (hwake j' hne ▸ hj')
        aware := fun j' hj' link => by
          by_cases hne : j' = j
          · exact hne ▸ hmine link
          · simp only [hothers j' hne]
            exact h.aware j' (hwake j' hne ▸ hj') link
        asleepPublished := fun j' hj' => by
          obtain ⟨hne, hj'⟩ := hasleep hj'
          simp only [hwake j' hne]
          exact h.asleepPublished j' hj'
        covers := fun j' hj' link l i hp hs hlate => by
          obtain ⟨hne, hj'⟩ := hasleep hj'
          simp only [hwake j' hne]
          simp only [hothers j' hne] at hlate
          exact h.covers j' hj' link l i hp hs hlate }
  · exact
      { (Guar.refl s : Guar role t s s) with
        duty := h.of_covered rfl rfl rfl rfl (fun j' link hlate => by
          by_cases hne : j' = j
          · rw [hne, hmine link] at hlate
            simp at hlate
          · rwa [hothers j' hne] at hlate) fun link _ => hcovered link
        loop := fun j' hne => by
          have hne' : j' ≠ j := by rintro rfl; exact hne hj
          exact ⟨hwake j' hne', rfl, rfl⟩
        announced := fun link l i hp hs => .inl ⟨hp, hs, rfl, fun j' hne => by
          have hne' : j' ≠ j := by rintro rfl; exact hne hj
          simp only [hothers j' hne']⟩ }

/-- A loop publishes when it wakes: in time for everything it knows of. -/
theorem fallAsleep (h : Inv role c₀ s) (hj : role t = some j) {wake : ℕ}
    (heternal : s.mem.wakeTick j = timerSleepEternal) (hwake : wake ≠ awake)
    (hcovers : ∀ link level index, s.ghost.place link = .slot level index →
      s.ghost.stage link ≠ .pushed → s.ghost.late j link = false →
      wake ≤ s.mem.deadlineTick link + 1) :
    Keeps role c₀ t s ⟨s.mem.setWake j wake, s.ghost.fallAsleep j⟩ := by
  have hmine : (s.mem.setWake j wake).wakeTick j = wake := update_self ..
  have hothers : ∀ j', j' ≠ j → (s.mem.setWake j wake).wakeTick j' = s.mem.wakeTick j' :=
    fun j' hne => update_of_ne hne _ _
  have hasleep : ∀ j', j' ≠ j → (s.ghost.fallAsleep j).asleep j' = s.ghost.asleep j' :=
    fun j' hne => update_of_ne hne _ _
  have hcovered : ∀ link, s.ghost.place link ≠ .pool → Covered s link →
      Covered ⟨s.mem.setWake j wake, s.ghost.fallAsleep j⟩ link := by
    rintro link hp (hbell | ⟨j', hr, hc⟩ | hnone)
    · exact .inl hbell
    · refine .inr (.inl ⟨j', hr, hc.imp_right (Or.imp_right fun hle => ?_)⟩)
      by_cases hne : j' = j
      · have hlimit := h.limit link hp
        rw [hne, heternal] at hle
        exact absurd (hle.trans (Nat.succ_le_succ hlimit)) (by decide)
      · exact (hothers j' hne).symm ▸ hle
    · exact .inr (.inr hnone)
  constructor
  · exact
      { h with
        settled := fun link l i hp hs =>
          hcovered link (by simp [show s.ghost.place link = _ from hp]) (h.settled link l i hp hs)
        present := fun j' hj' => by
          by_cases hne : j' = j
          · exact hne ▸ h.present j (heternal ▸ by decide)
          · exact h.present j' (hothers j' hne ▸ hj')
        aware := fun j' hj' link => by
          have hne : j' ≠ j := by rintro rfl; exact hwake (hmine.symm.trans hj')
          exact h.aware j' (hothers j' hne ▸ hj') link
        asleepPublished := fun j' hj' => by
          by_cases hne : j' = j
          · simp only [hne, hmine]
            exact hwake
          · simp only [hothers j' hne]
            exact h.asleepPublished j' (hasleep j' hne ▸ hj')
        covers := fun j' hj' link l i hp hs hlate => by
          by_cases hne : j' = j
          · simp only [hne, hmine]
            exact hcovers link l i hp hs (hne ▸ hlate)
          · simp only [hothers j' hne]
            exact h.covers j' (hasleep j' hne ▸ hj') link l i hp hs hlate }
  · exact
      { (Guar.refl s : Guar role t s s) with
        duty := h.of_covered rfl rfl rfl rfl (fun _ _ h => h) hcovered
        loop := fun j' hne => by
          have hne' : j' ≠ j := by rintro rfl; exact hne hj
          exact ⟨hothers j' hne', rfl, rfl⟩
        announced := fun _ _ _ hp hs => .inl ⟨hp, hs, rfl, fun _ _ => rfl⟩ }

/-- A loop thread comes in, awake. -/
theorem register (h : Inv role c₀ s) (hj : role t = some j) (hawake : s.mem.wakeTick j = awake):
    Keeps role c₀ t s ⟨s.mem, s.ghost.register j⟩ := by
  have hregistered : ∀ j', s.ghost.registered j' = true →
      (s.ghost.register j).registered j' = true := by
    intro j' hr
    by_cases hne : j' = j
    · simp [Ghost.register, hne]
    · simpa [Ghost.register, hne] using hr
  have hcovered : ∀ link, Covered s link → Covered ⟨s.mem, s.ghost.register j⟩ link := by
    rintro link (hbell | ⟨j', hr, hc⟩ | -)
    · exact .inl hbell
    · exact .inr (.inl ⟨j', hregistered j' hr, hc⟩)
    · exact .inr (.inl ⟨j, by simp [Ghost.register], .inr (.inl (h.aware j hawake link))⟩)
  exact ⟨{ h with
      settled := fun link l i hp hs => hcovered link (h.settled link l i hp hs)
      present := fun j' hj' => hregistered j' (h.present j' hj') },
    { (Guar.refl s : Guar role t s s) with
      duty := h.of_covered rfl rfl rfl rfl (fun _ _ h => h) fun link _ => hcovered link
      loop := fun j' hne => by
        have hne' : j' ≠ j := by rintro rfl; exact hne hj
        exact ⟨rfl, rfl, update_of_ne hne' _ _⟩
      stays := hregistered }⟩

/-- The doorbell wakes a loop. -/
theorem answer (h : Inv role c₀ s) (hregistered : s.ghost.registered j = true) :
    Keeps role c₀ t s ⟨{ s.mem with doorbell := false },
        { s.ghost with answering := update s.ghost.answering j true }⟩ := by
  have hcovered : ∀ link, Covered s link → Covered ⟨{ s.mem with doorbell := false },
      { s.ghost with answering := update s.ghost.answering j true }⟩ link := by
    rintro link (- | ⟨j', hr, hc⟩ | hnone)
    · exact .inr (.inl ⟨j, hregistered, .inl (update_self ..)⟩)
    · refine .inr (.inl ⟨j', hr, hc.imp_left fun ha => ?_⟩)
      by_cases hne : j' = j
      · simp [hne]
      · simpa [update_of_ne hne] using ha
    · exact .inr (.inr hnone)
  exact ⟨{ h with settled := fun link l i hp hs => hcovered link (h.settled link l i hp hs) },
    { (Guar.refl s : Guar role t s s) with
      duty := h.of_covered rfl rfl rfl rfl (fun _ _ h => h) fun link _ => hcovered link }⟩

/-! ### Bits and brackets -/

/-- Setting a bit is always right. -/
theorem occupy (h : Inv role c₀ s) (level index : ℕ) :
    Keeps role c₀ t s ⟨setOccupancy level index true s.mem, s.ghost⟩ := by
  refine ⟨{ h with bits := fun link l i hp hs => ?_ }, { Guar.refl s with }⟩
  by_cases hli : l = level ∧ i = index
  · exact .inl (by simp [setOccupancy, hli.1, hli.2])
  · exact (h.bits link l i hp hs).imp_left fun hbit => by
      simpa [setOccupancy, setAt_of_ne _ _ hli] using hbit

variable {level index : ℕ}

/-- The bit of a slot is cleared under a bracket. -/
theorem clear (h : Inv role c₀ s) (hclearing : s.ghost.clearing t = some (level, index)):
    Keeps role c₀ t s ⟨setOccupancy level index false s.mem, s.ghost⟩ := by
  refine ⟨{ h with bits := fun link l i hp hs => ?_ }, { Guar.refl s with }⟩
  by_cases hli : l = level ∧ i = index
  · exact .inr ⟨t, by rw [hclearing, hli.1, hli.2]⟩
  · exact (h.bits link l i hp hs).imp_left fun hbit => by
      simpa [setOccupancy, setAt_of_ne _ _ hli] using hbit

section

variable [DecidableEq τ]

/-- The thread enters the grid, or leaves it with its publications finished. -/
theorem enter (h : Inv role c₀ s) {inside : Bool} (hduty : s.ghost.duty t = none) :
    Keeps role c₀ t s ⟨s.mem, s.ghost.enter t inside⟩ := by
  refine ⟨{ h with dutyParked := fun u link hu => ?_ }, { Guar.refl s with brackets := fun u hu => ?_ }⟩
  · refine ⟨(update_of_ne ?_ _ _).trans (h.dutyParked u link hu).1, (h.dutyParked u link hu).2⟩
    rintro rfl
    have : s.ghost.duty u = some link := hu
    simp [hduty] at this
  · exact ⟨rfl, rfl, update_of_ne hu _ _⟩

/-- Thread `t` gives up a slot whose bit is set or that is empty. -/
theorem resolve (h : Inv role c₀ s) (hslot : ∀ level index, s.ghost.clearing t = some (level, index) →
      s.mem.occupancy level index = true ∨ s.ghost.chain level index = []) :
    Keeps role c₀ t s ⟨s.mem, s.ghost.resolve t⟩ := by
  refine ⟨{ h with
    bits := fun link l i hp hs => ?_
    clearingOpen := fun u hu => ?_ },
    { Guar.refl s with brackets := fun u hu => ⟨rfl, update_of_ne hu _ _, rfl⟩ }⟩
  · rcases h.bits link l i hp hs with hbit | ⟨u, hu⟩
    · exact .inl hbit
    by_cases hut : u = t
    · rw [hut] at hu
      refine .inl ((hslot l i hu).resolve_right fun hnil => ?_)
      have := (h.slotted l i link).mpr hp
      simp [hnil] at this
    · exact .inr ⟨u, (update_of_ne hut _ _).trans hu⟩
  · by_cases hut : u = t
    · simp [Ghost.resolve, hut] at hu
    · simp only [Ghost.resolve, update_of_ne hut] at hu
      exact h.clearingOpen u hu

/-- The visitor that comes late sets the bit again. -/
theorem repair (h : Inv role c₀ s)
    (hclearing : ∀ slot, s.ghost.clearing t = some slot → slot = (level, index)) :
    Keeps role c₀ t s ⟨setOccupancy level index true s.mem, s.ghost.resolve t⟩ := by
  refine ⟨((h.occupy (t := t) level index).1.resolve fun l i hli => .inl ?_).1,
    { Guar.refl s with brackets := fun u hu => ⟨rfl, update_of_ne hu _ _, rfl⟩ }⟩
  obtain ⟨rfl, rfl⟩ := Prod.mk.inj (hclearing _ hli)
  simp [setOccupancy]

/-- A loop turns its sequence number with its bracket. -/
theorem parity_turn (h : Inv role c₀ s) (hrole : Distinct role) (hj : role t = some j) {b : Bool}
    (hbracket : s.ghost.bracket t = !b) (u : τ) (j' : Fin n) (hu : role u = some j') :
    (s.mem.setSequence j (s.mem.preclearSequence j + 1)).preclearSequence j' % 2 =
      if update s.ghost.bracket t b u = true then 1 else 0 := by
  by_cases hut : u = t
  · subst hut
    obtain rfl := Option.some.inj (hj.symm.trans hu)
    have := h.parity u j hj
    rw [hbracket] at this
    simp only [Mem.setSequence, update_self]
    cases b <;> simp at this ⊢ <;> omega
  · have hne : j' ≠ j := by rintro rfl; exact hut (hrole u t j' hu hj)
    simp only [Mem.setSequence, update_of_ne hut, update_of_ne hne]
    exact h.parity u j' hu

/-- The bracket of a loop is not one of those that overflow. -/
theorem overflow_turn (h : Inv role c₀ s) (hj : role t = some j) (b : Bool) (u : τ) :
    u ∈ s.ghost.overflowing ↔ role u = none ∧ update s.ghost.bracket t b u = true := by
  rw [h.overflow]
  by_cases hut : u = t
  · simp [hut, hj]
  · rw [update_of_ne hut]

/-- The bracket of a thread that is no loop has no sequence number. -/
theorem parity_other (h : Inv role c₀ s) (hj : role t = none) (b : Bool) (u : τ) (j' : Fin n)
    (hu : role u = some j') : s.mem.preclearSequence j' % 2 =
      if update s.ghost.bracket t b u = true then 1 else 0 := by
  have hut : u ≠ t := by rintro rfl; simp [hj] at hu
  rw [update_of_ne hut]
  exact h.parity u j' hu

theorem guar_turn (hj : role t = some j) (b : Bool) {clearing : τ → Option (ℕ × ℕ)}
    (hclearing : ∀ u ≠ t, clearing u = s.ghost.clearing u) (overflowing : List τ) :
    Guar role t s ⟨s.mem.setSequence j (s.mem.preclearSequence j + 1), { s.ghost with
      bracket := update s.ghost.bracket t b
      clearing := clearing
      overflowing := overflowing }⟩ :=
  { Guar.refl s with
    brackets := fun u hu => ⟨update_of_ne hu _ _, hclearing u hu, rfl⟩
    loop := fun j' hne => by
      have hne' : j' ≠ j := by rintro rfl; exact hne hj
      exact ⟨rfl, update_of_ne hne' _ _, rfl⟩
    sequence := fun j' => by
      by_cases hne : j' = j
      · simp [hne, Mem.setSequence]
      · simp [Mem.setSequence, update_of_ne hne] }

/-- The slot whose bit is being cleared is kept while the bracket is open. -/
theorem bits_open (h : Inv role c₀ s) (hclearing : s.ghost.clearing t = none) (slot : Option (ℕ × ℕ))
    (link : ℓ) (level index : ℕ) (hp : s.ghost.place link = .slot level index)
    (hs : s.ghost.stage link ≠ .pushed) : s.mem.occupancy level index = true ∨
      ∃ u, update s.ghost.clearing t slot u = some (level, index) :=
  (h.bits link level index hp hs).imp_right fun ⟨u, hu⟩ => by
    refine ⟨u, (update_of_ne ?_ _ _).trans hu⟩
    rintro rfl
    simp [hclearing] at hu

theorem clearingOpen_open (h : Inv role c₀ s) (slot : Option (ℕ × ℕ)) (u : τ)
    (hu : update s.ghost.clearing t slot u ≠ none) :
    update s.ghost.bracket t true u = true := by
  by_cases hut : u = t
  · rw [hut]
    exact update_self ..
  · rw [update_of_ne hut] at hu ⊢
    exact h.clearingOpen u hu

theorem clearingOpen_close (h : Inv role c₀ s) (hclearing : s.ghost.clearing t = none) (u : τ)
    (hu : s.ghost.clearing u ≠ none) : update s.ghost.bracket t false u = true := by
  have hut : u ≠ t := by rintro rfl; exact hu hclearing
  rw [update_of_ne hut]
  exact h.clearingOpen u hu

theorem openBracket_some (h : Inv role c₀ s) (hrole : Distinct role)
    (hj : role t = some j) (hbracket : s.ghost.bracket t = false)
    (hclearing : s.ghost.clearing t = none) (level index : ℕ) :
    Keeps role c₀ t s ⟨s.mem.setSequence j (s.mem.preclearSequence j + 1),
      s.ghost.openBracket t (some j) level index⟩ :=
  ⟨{ h with
      bits := h.bits_open hclearing _
      clearingOpen := h.clearingOpen_open _
      parity := h.parity_turn hrole hj hbracket
      overflow := h.overflow_turn hj true }, guar_turn hj true (fun _ hu => update_of_ne hu _ _) _⟩

theorem openBracket_none (h : Inv role c₀ s) (hj : role t = none)
    (hbracket : s.ghost.bracket t = false) (hclearing : s.ghost.clearing t = none) (level index : ℕ) :
    Keeps role c₀ t s ⟨{ s.mem with
        overflowEpoch := s.mem.overflowEpoch + 1
        overflowActive := s.mem.overflowActive + 1 }, s.ghost.openBracket t none level index⟩ := by
  constructor
  · exact
      { h with
        bits := h.bits_open hclearing _
        clearingOpen := h.clearingOpen_open _
        parity := h.parity_other hj true
        overflow := fun u => by
          simp only [Ghost.openBracket, if_true, List.mem_cons, h.overflow]
          by_cases hut : u = t
          · simp [hut, hj]
          · simp [hut]
        overflowNodup := by
          simp only [Ghost.openBracket, if_true]
          refine List.nodup_cons.mpr ⟨?_, h.overflowNodup⟩
          simp [h.overflow, hbracket]
        active := by simp [Ghost.openBracket, h.active] }
  · exact
      { Guar.refl s with
        brackets := fun u hu => ⟨update_of_ne hu _ _, update_of_ne hu _ _, rfl⟩
        epoch := Nat.le_succ _
        active := fun heq => absurd heq (Nat.succ_ne_self _) }

theorem closeBracket_some (h : Inv role c₀ s) (hrole : Distinct role)
    (hj : role t = some j) (hbracket : s.ghost.bracket t = true) (hclearing : s.ghost.clearing t = none) :
    Keeps role c₀ t s ⟨s.mem.setSequence j (s.mem.preclearSequence j + 1), s.ghost.closeBracket t⟩ := by
  have hnot : t ∉ s.ghost.overflowing := by simp [h.overflow, hj]
  have herase : s.ghost.overflowing.erase t = s.ghost.overflowing := List.erase_of_not_mem hnot
  rw [Ghost.closeBracket, herase]
  exact
    ⟨{ h with
        clearingOpen := h.clearingOpen_close hclearing
        parity := h.parity_turn hrole hj hbracket
        overflow := h.overflow_turn hj false }, guar_turn hj false (fun _ _ => rfl) _⟩

theorem closeBracket_none (h : Inv role c₀ s) (hj : role t = none)
    (hbracket : s.ghost.bracket t = true) (hclearing : s.ghost.clearing t = none) :
    Keeps role c₀ t s ⟨{ s.mem with overflowActive := s.mem.overflowActive - 1 },
      s.ghost.closeBracket t⟩ := by
  have hmem : t ∈ s.ghost.overflowing := (h.overflow t).mpr ⟨hj, hbracket⟩
  constructor
  · exact
      { h with
        clearingOpen := h.clearingOpen_close hclearing
        parity := h.parity_other hj false
        overflow := fun u => by
          simp only [Ghost.closeBracket, h.overflowNodup.mem_erase_iff, h.overflow]
          by_cases hut : u = t
          · simp [hut]
          · simp [hut]
        overflowNodup := h.overflowNodup.erase t
        active := by simp [Ghost.closeBracket, List.length_erase_of_mem hmem, h.active] }
  · exact
      { Guar.refl s with
        brackets := fun u hu => ⟨update_of_ne hu _ _, rfl, rfl⟩
        active := fun _ => Nat.sub_le _ _ }

end

/-! ### A publication is announced -/

variable [DecidableEq ℓ]

theorem mark (h : Inv role c₀ s)
    (hduty : ∀ link, s.ghost.duty t = some link → s.ghost.place link = .slot level index) :
    Keeps role c₀ t s ⟨setOccupancy level index true s.mem, s.ghost.mark t s.mem⟩ := by
  rcases hd : s.ghost.duty t with _ | link
  · simp only [Ghost.mark, hd]
    exact h.occupy level index
  have heq : s.ghost.mark t s.mem =
      { s.ghost with
        stage := update s.ghost.stage link .marked
        late := fun j =>
          update (s.ghost.late j) link (s.mem.wakeTick j ≠ awake) } := by
    simp only [Ghost.mark, hd]
  rw [heq]
  have hstage : ∀ l, l ≠ link →
      update s.ghost.stage link .marked l = s.ghost.stage l :=
    fun l hne => update_of_ne hne _ _
  have hlate : ∀ (x : Bool) l, l ≠ link → ∀ j,
      update (s.ghost.late j) link x l = s.ghost.late j l :=
    fun x l hne j => update_of_ne hne _ _
  have hcovered : ∀ l, l ≠ link → Covered s l → Covered
      ⟨setOccupancy level index true s.mem, { s.ghost with
          stage := update s.ghost.stage link .marked
          late := fun j =>
            update (s.ghost.late j) link (s.mem.wakeTick j ≠ awake) }⟩ l := by
    intro l hne hc
    simpa only [Covered, hlate _ l hne, setOccupancy] using hc
  have hocc := h.occupy (t := t) level index
  constructor
  · exact
      { hocc.1 with
        bits := fun link' l i hp hs => by
          by_cases hne : link' = link
          · rw [hne, hduty link hd] at hp
            obtain ⟨rfl, rfl⟩ := Place.slot.inj hp
            exact .inl (by simp [setOccupancy])
          · exact hocc.1.bits link' l i hp (hstage link' hne ▸ hs)
        unsettled := fun link' l i hp hs => by
          by_cases hne : link' = link
          · exact ⟨t, hne ▸ hd⟩
          · exact h.unsettled link' l i hp (hstage link' hne ▸ hs)
        settled := fun link' l i hp hs => by
          have hne : link' ≠ link := by
            rintro rfl
            exact absurd ((update_self ..).symm.trans hs) (by simp)
          exact hcovered link' hne (h.settled link' l i hp (hstage link' hne ▸ hs))
        aware := fun j hj link' => by
          by_cases hne : link' = link
          · simp only [hne, update_self]
            exact decide_eq_false (not_not.mpr hj)
          · exact (hlate _ link' hne j).trans (h.aware j hj link')
        covers := fun j hj link' l i hp hs hfresh => by
          have hne : link' ≠ link := by
            rintro rfl
            simp only [update_self, decide_eq_false_iff_not, not_not] at hfresh
            exact h.asleepPublished j hj hfresh
          exact h.covers j hj link' l i hp (hstage link' hne ▸ hs)
            ((hlate _ link' hne j).symm.trans hfresh) }
  · exact
      { hocc.2 with
        duty := fun u hu link' hd' => by
          have hne : link' ≠ link := by
            rintro rfl
            exact hu (h.dutyOnce u t link' hd' hd)
          exact ⟨hd', rfl, hstage link' hne, rfl, fun j hj => (hlate _ link' hne j).symm.trans hj,
            hcovered link' hne⟩
        announced := fun link' l i hp hs => by
          by_cases hne : link' = link
          · refine .inr fun j hj => ?_
            simp only [hne, update_self]
            exact decide_eq_true hj
          · exact .inl ⟨hp, hstage link' hne ▸ hs, rfl, fun j _ => hlate _ link' hne j⟩ }

theorem settle [DecidableEq τ] (h : Inv role c₀ s) (hduty : ∀ link, s.ghost.duty t = some link →
      s.ghost.stage link ≠ .pushed ∧ Covered s link) :
    Keeps role c₀ t s ⟨s.mem, s.ghost.settle t⟩ := by
  rcases hd : s.ghost.duty t with _ | link
  · simp only [Ghost.settle, hd]
    exact ⟨h, Guar.refl s⟩
  have heq : s.ghost.settle t =
      { s.ghost with
        stage := update s.ghost.stage link .settled
        duty := update s.ghost.duty t none } := by
    simp only [Ghost.settle, hd]
  rw [heq]
  have hstage : ∀ l, l ≠ link →
      update s.ghost.stage link .settled l = s.ghost.stage l :=
    fun l hne => update_of_ne hne _ _
  have hdutyof : ∀ {u link'}, update s.ghost.duty t none u = some link' →
      u ≠ t ∧ s.ghost.duty u = some link' := by
    intro u link' hu
    have hut : u ≠ t := by rintro rfl; simp at hu
    exact ⟨hut, (update_of_ne hut _ _).symm.trans hu⟩
  have hmarked : ∀ {l}, update s.ghost.stage link .settled l ≠ .pushed →
      s.ghost.stage l ≠ .pushed := by
    intro l hs
    by_cases hne : l = link
    · exact hne ▸ (hduty link hd).1
    · exact hstage l hne ▸ hs
  constructor
  · exact
      { h with
        bits := fun link' l i hp hs => h.bits link' l i hp (hmarked hs)
        dutyParked := fun u link' hu => h.dutyParked u link' (hdutyof hu).2
        dutyOnce := fun u v link' hu hv => h.dutyOnce u v link' (hdutyof hu).2 (hdutyof hv).2
        unsettled := fun link' l i hp hs => by
          have hne : link' ≠ link := by rintro rfl; exact hs (update_self ..)
          obtain ⟨u, hu⟩ := h.unsettled link' l i hp (hstage link' hne ▸ hs)
          refine ⟨u, (update_of_ne ?_ _ _).trans hu⟩
          rintro rfl
          exact hne (Option.some.inj (hu.symm.trans hd))
        settled := fun link' l i hp hs => by
          by_cases hne : link' = link
          · exact hne ▸ (hduty link hd).2
          · exact h.settled link' l i hp (hstage link' hne ▸ hs)
        covers := fun j hj link' l i hp hs => h.covers j hj link' l i hp (hmarked hs) }
  · exact
      { Guar.refl s with
        duty := fun u hu link' hd' => by
          have hd'' := (hdutyof hd').2
          have hne : link' ≠ link := by rintro rfl; exact hu (h.dutyOnce u t _ hd'' hd)
          exact ⟨hd'', rfl, hstage link' hne, rfl, fun _ h => h, fun h => h⟩
        announced := fun link' l i hp hs => .inl ⟨hp, hmarked hs, rfl, fun _ _ => rfl⟩ }

end Inv

end Timers

end Asyncio

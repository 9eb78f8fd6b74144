import Asyncio.Concurrent.Chain
import Asyncio.Concurrent.Outline
import Asyncio.Timers.Code

/-!
# What holds between any two accesses

The invariant of the timeout grid and what each thread guarantees the others.

Every slot stands for the first of its windows that is not over at the cursor, or for the one after
it, if the cursor's own window was already drained. A link is in a chain, in a thread's hands, or in
the pool, and in a chain only where the window starts no later than its deadline.

A parked link's occupancy bit is set as soon as the thread that parked it has set it, except that a
visitor with an open bracket may have cleared it. A loop that went to sleep after that knows of the
link. One that was asleep before is woken, unless another loop serves the link.

For each kind of change of the state there is one lemma. It says that the invariant is kept and that
the change is within the guarantee. Here are those by which links change hands.
-/

namespace Asyncio

namespace Timers

open Concurrent Wheel Function List

variable {ℓ τ : Type} {n : ℕ}

/-- Somebody will look after a parked link: the doorbell rings, or some loop has yet to look at the
bitmap, or has looked since, or wakes in time. -/
def Covered (s : State ℓ τ n) (link : ℓ) : Prop :=
  s.mem.doorbell = true ∨
    (∃ j, s.ghost.registered j = true ∧ (s.ghost.answering j = true ∨ s.ghost.late j link = false ∨
      s.mem.wakeTick j ≤ s.mem.deadlineTick link + 1)) ∨
    ∀ j, s.ghost.registered j = false

/-- The invariant. `role` says which loop state a thread has, `c₀` is the tick the grid was set up
at. -/
structure Inv (role : τ → Option (Fin n)) (c₀ : ℕ) (s : State ℓ τ n) : Prop where
  -- windows
  mod : ∀ level < levels, ∀ index < slots,
    s.mem.high level index % timerWheelPeriod level = residue level index
  lower : ∀ level < levels, ∀ index < slots,
    nextStart level index s.mem.timerCloseCursor ≤ s.mem.high level index
  upper : ∀ level < levels, ∀ index < slots,
    s.mem.high level index ≤ nextStart level index (s.mem.timerCloseCursor + 1)
  started : c₀ ≤ s.mem.timerCloseCursor
  trails : s.mem.timerCloseCursor ≤ getMonotonicTicks s.mem.now
  clock : s.mem.now < word
  -- links
  linked : ∀ level index,
    Chain some s.mem.next (s.mem.low level index) (s.ghost.chain level index) none
  slotted : ∀ level index link,
    link ∈ s.ghost.chain level index ↔ s.ghost.place link = .slot level index
  chainNodup : ∀ level index, (s.ghost.chain level index).Nodup
  handed : ∀ u link, link ∈ s.ghost.held u ↔ s.ghost.place link = .held u
  heldNodup : ∀ u, (s.ghost.held u).Nodup
  inRange : ∀ link level index, s.ghost.place link = .slot level index →
    level < levels ∧ index < slots
  due : ∀ link level index, s.ghost.place link = .slot level index →
    s.mem.high level index ≤ s.mem.deadlineTick link
  limit : ∀ link, s.ghost.place link ≠ .pool → s.mem.deadlineTick link ≤ deadlineLimit
  parkedLive : ∀ link level index, s.ghost.place link = .slot level index →
    s.ghost.live link = true
  liveOut : ∀ link, s.ghost.live link = true → s.ghost.place link ≠ .pool
  account : ∀ link, s.ghost.accepted link =
    s.ghost.recycled link + if s.ghost.live link = true then 1 else 0
  -- what happened
  drainedBelow : ∀ d ∈ s.ghost.drained, d.baseTick < s.mem.high d.level d.index
  drainedOnce : s.ghost.drained.Pairwise fun d e =>
    ¬ (d.level = e.level ∧ d.index = e.index ∧ d.baseTick = e.baseTick)
  drainedAll : ∀ level < levels, ∀ index < slots, ∀ start,
    start % timerWheelPeriod level = residue level index → c₀ ≤ start →
    start < s.mem.high level index →
    ∃ d ∈ s.ghost.drained, d.level = level ∧ d.index = index ∧ d.baseTick = start
  drainedOver : ∀ d ∈ s.ghost.drained, d.baseTick < getMonotonicTicks s.mem.now
  refusedLate : ∀ deadline ∈ s.ghost.refused, deadline < s.mem.timerCloseCursor ∨
    ∃ d ∈ s.ghost.drained, d.level = 0 ∧ d.index = slotIndex 0 deadline ∧ d.baseTick = deadline
  timeoutsOver : ∀ p ∈ s.ghost.timeouts, p.1 < getMonotonicTicks p.2
  -- occupancy bits
  bits : ∀ link level index, s.ghost.place link = .slot level index →
    s.ghost.stage link ≠ .pushed →
    s.mem.occupancy level index = true ∨ ∃ u, s.ghost.clearing u = some (level, index)
  clearingOpen : ∀ u, s.ghost.clearing u ≠ none → s.ghost.bracket u = true
  parity : ∀ u j, role u = some j →
    s.mem.preclearSequence j % 2 = if s.ghost.bracket u = true then 1 else 0
  overflow : ∀ u, u ∈ s.ghost.overflowing ↔ role u = none ∧ s.ghost.bracket u = true
  overflowNodup : s.ghost.overflowing.Nodup
  active : s.mem.overflowActive = s.ghost.overflowing.length
  -- publication
  dutyParked : ∀ u link, s.ghost.duty u = some link →
    s.ghost.inside u = true ∧ ∃ level index, s.ghost.place link = .slot level index
  dutyOnce : ∀ u v link, s.ghost.duty u = some link → s.ghost.duty v = some link → u = v
  unsettled : ∀ link level index, s.ghost.place link = .slot level index →
    s.ghost.stage link ≠ .settled → ∃ u, s.ghost.duty u = some link
  settled : ∀ link level index, s.ghost.place link = .slot level index →
    s.ghost.stage link = .settled → Covered s link
  -- sleepers
  present : ∀ j, s.mem.wakeTick j ≠ awake → s.ghost.registered j = true
  aware : ∀ j, s.mem.wakeTick j = awake → ∀ link, s.ghost.late j link = false
  asleepPublished : ∀ j, s.ghost.asleep j = true → s.mem.wakeTick j ≠ awake
  covers : ∀ j, s.ghost.asleep j = true → ∀ link level index,
    s.ghost.place link = .slot level index → s.ghost.stage link ≠ .pushed →
    s.ghost.late j link = false → s.mem.wakeTick j ≤ s.mem.deadlineTick link + 1

/-- What thread `t` guarantees of its steps. -/
structure Guar (role : τ → Option (Fin n)) (t : τ) (s s' : State ℓ τ n) : Prop where
  cursor : s.mem.timerCloseCursor ≤ s'.mem.timerCloseCursor
  high : ∀ level index, s.mem.high level index ≤ s'.mem.high level index
  now : s.mem.now ≤ s'.mem.now
  drained : ∀ d ∈ s.ghost.drained, d ∈ s'.ghost.drained
  /-- A chain is left alone, gets one link, or is taken as a whole, and its window with it. -/
  chains : ∀ level index, s'.ghost.chain level index = s.ghost.chain level index ∨
    (∃ link ∈ s.ghost.held t, s'.ghost.chain level index = link :: s.ghost.chain level index ∧
      s'.mem.high level index = s.mem.high level index) ∨
    (s'.ghost.chain level index = [] ∧ s'.ghost.held t = s.ghost.chain level index ∧
      s'.ghost.drained = ⟨level, index, s.mem.high level index, t⟩ :: s.ghost.drained)
  held : ∀ u ≠ t, s'.ghost.held u = s.ghost.held u
  cells : ∀ u ≠ t, ∀ link ∈ s.ghost.held u, s'.mem.next link = s.mem.next link ∧
    s'.mem.deadlineTick link = s.mem.deadlineTick link
  brackets : ∀ u ≠ t, s'.ghost.bracket u = s.ghost.bracket u ∧
    s'.ghost.clearing u = s.ghost.clearing u ∧ s'.ghost.inside u = s.ghost.inside u
  /-- Another's publication goes on as it was, or is over. -/
  duty : ∀ u ≠ t, ∀ link, s'.ghost.duty u = some link → s.ghost.duty u = some link ∧
    s'.ghost.place link = s.ghost.place link ∧ s'.ghost.stage link = s.ghost.stage link ∧
    s'.mem.deadlineTick link = s.mem.deadlineTick link ∧
    (∀ j, s'.ghost.late j link = true → s.ghost.late j link = true) ∧
    (Covered s link → Covered s' link)
  loop : ∀ j, role t ≠ some j → s'.mem.wakeTick j = s.mem.wakeTick j ∧
    s'.mem.preclearSequence j = s.mem.preclearSequence j ∧
    s'.ghost.registered j = s.ghost.registered j
  stays : ∀ j, s.ghost.registered j = true → s'.ghost.registered j = true
  sequence : ∀ j, s.mem.preclearSequence j ≤ s'.mem.preclearSequence j
  epoch : s.mem.overflowEpoch ≤ s'.mem.overflowEpoch
  active : s'.mem.overflowEpoch = s.mem.overflowEpoch →
    s'.mem.overflowActive ≤ s.mem.overflowActive
  /-- A link becomes visible to the loops that are awake. -/
  announced : ∀ link level index, s'.ghost.place link = .slot level index →
    s'.ghost.stage link ≠ .pushed →
    (s.ghost.place link = .slot level index ∧ s.ghost.stage link ≠ .pushed ∧
      s'.mem.deadlineTick link = s.mem.deadlineTick link ∧
      ∀ j, role t ≠ some j → s'.ghost.late j link = s.ghost.late j link) ∨
    ∀ j, s'.mem.wakeTick j ≠ awake → s'.ghost.late j link = true

variable {role : τ → Option (Fin n)} {c₀ : ℕ} {t : τ} {s : State ℓ τ n}

theorem Guar.refl (s : State ℓ τ n) : Guar role t s s where
  cursor := le_rfl
  high _ _ := le_rfl
  now := le_rfl
  drained _ h := h
  chains _ _ := .inl rfl
  held _ _ := rfl
  cells _ _ _ _ := ⟨rfl, rfl⟩
  brackets _ _ := ⟨rfl, rfl, rfl⟩
  duty _ _ _ h := ⟨h, rfl, rfl, rfl, fun _ h => h, fun h => h⟩
  loop _ _ := ⟨rfl, rfl, rfl⟩
  stays _ h := h
  sequence _ := le_rfl
  epoch := le_rfl
  active _ := le_rfl
  announced _ _ _ hp hs := .inl ⟨hp, hs, rfl, fun _ _ => rfl⟩

/-- A step of thread `t` to `s'` is one it may take. -/
abbrev Keeps (role : τ → Option (Fin n)) (c₀ : ℕ) (t : τ) (s s' : State ℓ τ n) : Prop :=
  Inv role c₀ s' ∧ Guar role t s s'

/-- No two threads have one loop state. -/
def Distinct (role : τ → Option (Fin n)) : Prop :=
  ∀ u v j, role u = some j → role v = some j → u = v

namespace Inv

/-! ### Links change hands -/

variable {link : ℓ}

theorem not_mem_chain (h : Inv role c₀ s) {u : τ} (hheld : link ∈ s.ghost.held u)
    (level index : ℕ) : link ∉ s.ghost.chain level index := by
  rw [h.slotted, (h.handed u link).mp hheld]
  simp

theorem not_parked (h : Inv role c₀ s) {u : τ} (hheld : link ∈ s.ghost.held u)
    (level index : ℕ) : s.ghost.place link ≠ .slot level index := by
  rw [(h.handed u link).mp hheld]
  simp

/-- A link is in the hands of one thread. -/
theorem holder_unique (h : Inv role c₀ s) {u v : τ} (hu : link ∈ s.ghost.held u)
    (hv : link ∈ s.ghost.held v) : u = v :=
  Place.held.inj (((h.handed u link).mp hu).symm.trans ((h.handed v link).mp hv))

/-- Nobody is publishing a link that is in a thread's hands. -/
theorem duty_ne (h : Inv role c₀ s) {u : τ} (hheld : link ∈ s.ghost.held u) (v : τ) :
    s.ghost.duty v ≠ some link := by
  intro hduty
  obtain ⟨-, level, index, hplace⟩ := h.dutyParked v link hduty
  exact h.not_parked hheld level index hplace

variable [DecidableEq ℓ]

theorem storeNext (h : Inv role c₀ s) (hheld : link ∈ s.ghost.held t) (p : Option ℓ):
    Keeps role c₀ t s ⟨{ s.mem with next := update s.mem.next link p }, s.ghost⟩ := by
  refine ⟨{ h with linked := fun level index => (h.linked level index).congr fun e he => ?_ },
    { Guar.refl s with cells := fun u hu l hl => ⟨?_, rfl⟩ }⟩
  · refine update_of_ne ?_ _ _
    rintro rfl
    exact h.not_mem_chain hheld level index he
  · refine update_of_ne ?_ _ _
    rintro rfl
    exact hu (h.holder_unique hl hheld)

variable [DecidableEq τ]

/-- A link leaves its holder's hands. -/
theorem handed_erase (h : Inv role c₀ s) {place : ℓ → Place τ} {x : Place τ}
    (hheld : link ∈ s.ghost.held t) (hx : ∀ u, x ≠ .held u) (hself : place link = x)
    (hplace : ∀ l, l ≠ link → place l = s.ghost.place l) (u : τ) (link' : ℓ) :
    link' ∈ update s.ghost.held t ((s.ghost.held t).erase link) u ↔
      place link' = .held u := by
  by_cases hne : link' = link
  · subst hne
    rw [hself]
    refine iff_of_false ?_ (hx u)
    by_cases hut : u = t
    · rw [hut, update_self]
      exact (h.heldNodup t).not_mem_erase
    · rw [update_of_ne hut]
      exact fun hu => hut (h.holder_unique hu hheld)
  · rw [hplace link' hne, ← h.handed]
    by_cases hut : u = t
    · rw [hut, update_self, mem_erase_of_ne hne]
    · rw [update_of_ne hut]

theorem heldNodup_erase (h : Inv role c₀ s) (link : ℓ) (u : τ) :
    (update s.ghost.held t ((s.ghost.held t).erase link) u).Nodup := by
  by_cases hut : u = t
  · rw [hut, update_self]
    exact (h.heldNodup t).erase link
  · rw [update_of_ne hut]
    exact h.heldNodup u

theorem publish (h : Inv role c₀ s) {level index : ℕ} (hheld : link ∈ s.ghost.held t)
    (hduty : s.ghost.duty t = none) (hinside : s.ghost.inside t = true) (hl : level < levels)
    (hi : index < slots) (hnext : s.mem.next link = s.mem.low level index)
    (hdue : s.mem.high level index ≤ s.mem.deadlineTick link) :
    Keeps role c₀ t s ⟨{ s.mem with low := setAt s.mem.low level index (some link) },
        s.ghost.publish t level index link⟩ := by
  have hplace : ∀ l, l ≠ link → (s.ghost.publish t level index link).place l = s.ghost.place l :=
    fun l hne => update_of_ne hne _ _
  have hself : (s.ghost.publish t level index link).place link = .slot level index :=
    update_self ..
  have hkept : ∀ l, l ≠ link → (s.ghost.publish t level index link).stage l = s.ghost.stage l :=
    fun l hne => update_of_ne hne _ _
  have hstage : ∀ l, (s.ghost.publish t level index link).stage l ≠ .pushed → l ≠ link := by
    rintro l hl rfl
    exact hl (update_self ..)
  have hmine : (s.ghost.publish t level index link).duty t = some link := update_self ..
  have hothers : ∀ u, u ≠ t → (s.ghost.publish t level index link).duty u = s.ghost.duty u :=
    fun u hu => update_of_ne hu _ _
  have hdutyof : ∀ u link', (s.ghost.publish t level index link).duty u = some link' →
      (u = t ∧ link' = link) ∨ (u ≠ t ∧ link' ≠ link ∧ s.ghost.duty u = some link') := by
    intro u link' hu
    by_cases hut : u = t
    · rw [hut, hmine] at hu
      exact .inl ⟨hut, (Option.some.inj hu).symm⟩
    · rw [hothers u hut] at hu
      exact .inr ⟨hut, fun heq => h.duty_ne hheld u (heq ▸ hu), hu⟩
  constructor
  · exact
      { h with
        linked := fun l i => by
          by_cases hli : l = level ∧ i = index
          · obtain ⟨rfl, rfl⟩ := hli
            simp only [Ghost.publish, setAt_self]
            exact ⟨rfl, hnext ▸ h.linked l i⟩
          · simp only [Ghost.publish, setAt_of_ne _ _ hli]
            exact h.linked l i
        slotted := fun l i link' => by
          by_cases hne : link' = link
          · subst hne
            rw [hself]
            by_cases hli : l = level ∧ i = index
            · obtain ⟨rfl, rfl⟩ := hli
              simp [Ghost.publish]
            · simp only [Ghost.publish, setAt_of_ne _ _ hli, Place.slot.injEq]
              exact ⟨fun hm => absurd hm (h.not_mem_chain hheld l i),
                fun heq => absurd ⟨heq.1.symm, heq.2.symm⟩ hli⟩
          · rw [hplace link' hne, ← h.slotted]
            by_cases hli : l = level ∧ i = index
            · obtain ⟨rfl, rfl⟩ := hli
              simp [Ghost.publish, hne]
            · simp only [Ghost.publish, setAt_of_ne _ _ hli]
        chainNodup := fun l i => by
          by_cases hli : l = level ∧ i = index
          · obtain ⟨rfl, rfl⟩ := hli
            simp only [Ghost.publish, setAt_self]
            exact nodup_cons.mpr ⟨h.not_mem_chain hheld l i, h.chainNodup l i⟩
          · simp only [Ghost.publish, setAt_of_ne _ _ hli]
            exact h.chainNodup l i
        handed := handed_erase h hheld (by simp) hself hplace
        heldNodup := heldNodup_erase h link
        inRange := fun link' l i hp => by
          by_cases hne : link' = link
          · rw [hne, hself] at hp
            obtain ⟨rfl, rfl⟩ := Place.slot.inj hp
            exact ⟨hl, hi⟩
          · exact h.inRange link' l i (hplace link' hne ▸ hp)
        due := fun link' l i hp => by
          by_cases hne : link' = link
          · rw [hne, hself] at hp
            obtain ⟨rfl, rfl⟩ := Place.slot.inj hp
            exact hne ▸ hdue
          · exact h.due link' l i (hplace link' hne ▸ hp)
        limit := fun link' hp => by
          by_cases hne : link' = link
          · rw [hne]
            exact h.limit link (by rw [(h.handed t link).mp hheld]; simp)
          · exact h.limit link' (hplace link' hne ▸ hp)
        parkedLive := fun link' l i hp => by
          by_cases hne : link' = link
          · rw [hne]
            exact update_self ..
          · exact (update_of_ne hne _ _).trans
              (h.parkedLive link' l i (hplace link' hne ▸ hp))
        liveOut := fun link' hlive => by
          by_cases hne : link' = link
          · rw [hne, hself]
            simp
          · rw [hplace link' hne]
            exact h.liveOut link' ((update_of_ne hne _ _).symm.trans hlive)
        account := fun link' => by
          have := h.account link'
          by_cases hne : link' = link
          · subst hne
            by_cases hlive : s.ghost.live link' = true <;> simp_all [Ghost.publish]
          · by_cases hlive : s.ghost.live link = true <;> simp_all [Ghost.publish]
        bits := fun link' l i hp hs => by
          have hne := hstage link' hs
          exact h.bits link' l i (hplace link' hne ▸ hp) (hkept link' hne ▸ hs)
        dutyParked := fun u link' hu => by
          rcases hdutyof u link' hu with ⟨rfl, rfl⟩ | ⟨-, hne, hu'⟩
          · exact ⟨hinside, level, index, hself⟩
          · obtain ⟨hin, l, i, hp⟩ := h.dutyParked u link' hu'
            exact ⟨hin, l, i, (hplace link' hne).trans hp⟩
        dutyOnce := fun u v link' hu hv => by
          rcases hdutyof u link' hu with ⟨rfl, rfl⟩ | ⟨-, hne, hu'⟩
          · rcases hdutyof v _ hv with ⟨rfl, -⟩ | ⟨-, hne, -⟩
            · rfl
            · exact absurd rfl hne
          · rcases hdutyof v link' hv with ⟨-, heq⟩ | ⟨-, -, hv'⟩
            · exact absurd heq hne
            · exact h.dutyOnce u v link' hu' hv'
        unsettled := fun link' l i hp hs => by
          by_cases hne : link' = link
          · exact ⟨t, hne ▸ hmine⟩
          · obtain ⟨u, hu⟩ := h.unsettled link' l i (hplace link' hne ▸ hp) (hkept link' hne ▸ hs)
            refine ⟨u, (hothers u ?_).trans hu⟩
            rintro rfl
            simp [hduty] at hu
        settled := fun link' l i hp hs => by
          have hne := hstage link' (by rw [hs]; simp)
          exact h.settled link' l i (hplace link' hne ▸ hp) (hkept link' hne ▸ hs)
        covers := fun j hj link' l i hp hs => by
          have hne := hstage link' hs
          exact h.covers j hj link' l i (hplace link' hne ▸ hp) (hkept link' hne ▸ hs) }
  · exact
      { Guar.refl s with
        chains := fun l i => by
          by_cases hli : l = level ∧ i = index
          · obtain ⟨rfl, rfl⟩ := hli
            exact .inr (.inl ⟨link, hheld, setAt_self .., rfl⟩)
          · exact .inl (setAt_of_ne _ _ hli)
        held := fun u hu => update_of_ne hu _ _
        duty := fun u hu link' hd => by
          obtain ⟨-, hne, hd'⟩ := (hdutyof u link' hd).resolve_left fun heq => hu heq.1
          exact ⟨hd', hplace link' hne, hkept link' hne, rfl, fun _ h => h, fun h => h⟩
        announced := fun link' l i hp hs => by
          have hne := hstage link' hs
          exact .inl ⟨hplace link' hne ▸ hp, hkept link' hne ▸ hs, rfl, fun _ _ => rfl⟩ }

/-- Thread `t` takes the chain of the window at the cursor. -/
theorem drain (h : Inv role c₀ s) {level index : ℕ} (hl : level < levels) (hi : index < slots)
    (hheld : s.ghost.held t = [])
    (hclearing : ∀ slot, s.ghost.clearing t = some slot → slot = (level, index))
    (hcursor : s.mem.high level index = s.mem.timerCloseCursor)
    (hover : s.mem.timerCloseCursor < getMonotonicTicks s.mem.now) :
    Keeps role c₀ t s ⟨{ s.mem with
          low := setAt s.mem.low level index none
          high := setAt s.mem.high level index
            (s.mem.high level index + timerWheelPeriod level) },
        s.ghost.drain t level index (s.mem.high level index)⟩ := by
  have hi' : residue level index < timerWheelPeriod level := residue_lt hi
  have hpos := period_pos level
  have hmod : s.mem.timerCloseCursor % timerWheelPeriod level = residue level index :=
    hcursor ▸ h.mod level hl index hi
  have hplace : ∀ {link l i}, (s.ghost.drain t level index (s.mem.high level index)).place link =
      .slot l i → ¬ (l = level ∧ i = index) ∧ s.ghost.place link = .slot l i := by
    intro link l i hp
    simp only [Ghost.drain] at hp
    split at hp
    · simp at hp
    · next hnot =>
      refine ⟨?_, hp⟩
      rintro ⟨rfl, rfl⟩
      exact hnot ((h.slotted l i link).mpr hp)
  have hhigh : ∀ l i, s.mem.high l i ≤
      setAt s.mem.high level index (s.mem.high level index + timerWheelPeriod level) l i := by
    intro l i
    by_cases hli : l = level ∧ i = index
    · obtain ⟨rfl, rfl⟩ := hli
      simp
    · rw [setAt_of_ne _ _ hli]
  have hduty : ∀ {u link},
      (s.ghost.drain t level index (s.mem.high level index)).duty u = some link →
      s.ghost.duty u = some link ∧
        (s.ghost.drain t level index (s.mem.high level index)).place link = s.ghost.place link := by
    intro u link hu
    obtain ⟨hu, hnot⟩ := Option.filter_eq_some_iff.mp hu
    exact ⟨hu, if_neg (of_decide_eq_true hnot)⟩
  constructor
  · exact
      { h with
        mod := fun l hl' i hi'' => by
          by_cases hli : l = level ∧ i = index
          · obtain ⟨rfl, rfl⟩ := hli
            simp [h.mod l hl' i hi'']
          · simp only [setAt_of_ne _ _ hli]
            exact h.mod l hl' i hi''
        lower := fun l hl' i hi'' => (h.lower l hl' i hi'').trans (hhigh l i)
        upper := fun l hl' i hi'' => by
          by_cases hli : l = level ∧ i = index
          · obtain ⟨rfl, rfl⟩ := hli
            simp only [setAt_self, hcursor, nextStart, Window.next_succ_self hi' hmod, le_refl]
          · simp only [setAt_of_ne _ _ hli]
            exact h.upper l hl' i hi''
        linked := fun l i => by
          by_cases hli : l = level ∧ i = index
          · obtain ⟨rfl, rfl⟩ := hli
            simp [Ghost.drain]
          · simp only [Ghost.drain, setAt_of_ne _ _ hli]
            exact h.linked l i
        slotted := fun l i link => by
          by_cases hli : l = level ∧ i = index
          · obtain ⟨rfl, rfl⟩ := hli
            simp only [Ghost.drain, setAt_self, not_mem_nil, false_iff]
            exact fun hp => (hplace hp).1 ⟨rfl, rfl⟩
          · simp only [Ghost.drain, setAt_of_ne _ _ hli]
            rw [h.slotted]
            split
            · next hm =>
              rw [(h.slotted level index link).mp hm]
              simp only [Place.slot.injEq, reduceCtorEq, iff_false]
              exact fun heq => hli ⟨heq.1.symm, heq.2.symm⟩
            · exact Iff.rfl
        chainNodup := fun l i => by
          by_cases hli : l = level ∧ i = index
          · obtain ⟨rfl, rfl⟩ := hli
            simp [Ghost.drain]
          · simp only [Ghost.drain, setAt_of_ne _ _ hli]
            exact h.chainNodup l i
        handed := fun u link => by
          simp only [Ghost.drain]
          by_cases hut : u = t
          · rw [hut, update_self]
            split
            · next hm => exact iff_of_true hm rfl
            · next hm =>
              refine iff_of_false hm ?_
              rw [← h.handed, hheld]
              simp
          · rw [update_of_ne hut, h.handed]
            split
            · next hm =>
              rw [(h.slotted level index link).mp hm]
              simp [Ne.symm hut]
            · exact Iff.rfl
        heldNodup := fun u => by
          by_cases hut : u = t
          · simp only [Ghost.drain, hut, update_self]
            exact h.chainNodup level index
          · simp only [Ghost.drain, update_of_ne hut]
            exact h.heldNodup u
        inRange := fun link l i hp => h.inRange link l i (hplace hp).2
        due := fun link l i hp => by
          obtain ⟨hli, hp⟩ := hplace hp
          simp only [setAt_of_ne _ _ hli]
          exact h.due link l i hp
        limit := fun link hp => by
          refine h.limit link fun hpool => hp ?_
          simp only [Ghost.drain]
          rw [if_neg, hpool]
          rw [h.slotted, hpool]
          simp
        parkedLive := fun link l i hp => h.parkedLive link l i (hplace hp).2
        liveOut := fun link hlive => by
          simp only [Ghost.drain]
          split
          · simp
          · exact h.liveOut link hlive
        drainedBelow := forall_mem_cons.mpr ⟨by simp [hpos],
          fun d hd => (h.drainedBelow d hd).trans_le (hhigh _ _)⟩
        drainedOnce := pairwise_cons.mpr ⟨fun d hd => by
          rintro ⟨hlevel, hindex, hbase⟩
          have := h.drainedBelow d hd
          rw [← hlevel, ← hindex, ← hbase] at this
          exact Nat.lt_irrefl _ this, h.drainedOnce⟩
        drainedAll := fun l hl' i hi'' start hs hc hlt => by
          by_cases hli : l = level ∧ i = index
          · obtain ⟨rfl, rfl⟩ := hli
            simp only [setAt_self] at hlt
            rcases Nat.lt_or_ge start (s.mem.high l i) with hbelow | hge
            · obtain ⟨d, hd, hd'⟩ := h.drainedAll l hl i hi start hs hc hbelow
              exact ⟨d, mem_cons_of_mem _ hd, hd'⟩
            · have := Window.eq_of_mod_eq ((h.mod l hl i hi).trans hs.symm) hge hlt
              exact ⟨_, mem_cons_self, rfl, rfl, this⟩
          · simp only [setAt_of_ne _ _ hli] at hlt
            obtain ⟨d, hd, hd'⟩ := h.drainedAll l hl' i hi'' start hs hc hlt
            exact ⟨d, mem_cons_of_mem _ hd, hd'⟩
        drainedOver := forall_mem_cons.mpr ⟨hcursor ▸ hover, h.drainedOver⟩
        refusedLate := fun deadline hd => (h.refusedLate deadline hd).imp_right
          fun ⟨d, hd, hd'⟩ => ⟨d, mem_cons_of_mem _ hd, hd'⟩
        bits := fun link l i hp hs => by
          obtain ⟨hli, hp⟩ := hplace hp
          refine (h.bits link l i hp hs).imp_right fun ⟨u, hu⟩ => ⟨u, ?_⟩
          refine (update_of_ne ?_ _ _).trans hu
          rintro rfl
          have := hclearing _ hu
          simp only [Prod.mk.injEq] at this
          exact hli this
        clearingOpen := fun u hu => by
          by_cases hut : u = t
          · simp [Ghost.drain, hut] at hu
          · simp only [Ghost.drain, update_of_ne hut] at hu
            exact h.clearingOpen u hu
        dutyParked := fun u link hu => by
          obtain ⟨hu, hsame⟩ := hduty hu
          obtain ⟨hin, l, i, hp⟩ := h.dutyParked u link hu
          exact ⟨hin, l, i, hsame.trans hp⟩
        dutyOnce := fun u v link hu hv => h.dutyOnce u v link (hduty hu).1 (hduty hv).1
        unsettled := fun link l i hp hs => by
          obtain ⟨hli, hp⟩ := hplace hp
          obtain ⟨u, hu⟩ := h.unsettled link l i hp hs
          refine ⟨u, Option.filter_eq_some_iff.mpr ⟨hu, ?_⟩⟩
          rw [decide_eq_true_eq, h.slotted, hp]
          simpa using hli
        settled := fun link l i hp => h.settled link l i (hplace hp).2
        covers := fun j hj link l i hp => h.covers j hj link l i (hplace hp).2 }
  · exact
      { Guar.refl s with
        high := hhigh
        drained := fun d hd => mem_cons_of_mem _ hd
        chains := fun l i => by
          by_cases hli : l = level ∧ i = index
          · obtain ⟨rfl, rfl⟩ := hli
            exact .inr (.inr ⟨setAt_self .., update_self .., rfl⟩)
          · exact .inl (setAt_of_ne _ _ hli)
        held := fun u hu => update_of_ne hu _ _
        brackets := fun u hu => ⟨rfl, update_of_ne hu _ _, rfl⟩
        duty := fun u _ link hd =>
          ⟨(hduty hd).1, (hduty hd).2, rfl, rfl, fun _ h => h, fun h => h⟩
        announced := fun link l i hp hs => .inl ⟨(hplace hp).2, hs, rfl, fun _ _ => rfl⟩ }

/-- Thread `t` takes a link from the pool. -/
theorem acquire (h : Inv role c₀ s) {deadline : ℕ} (hpool : s.ghost.place link = .pool)
    (hlimit : deadline ≤ deadlineLimit) :
    Keeps role c₀ t s ⟨{ s.mem with
          deadlineTick := update s.mem.deadlineTick link deadline }, s.ghost.acquire t link⟩ := by
  have hplace : ∀ l, l ≠ link → (s.ghost.acquire t link).place l = s.ghost.place l :=
    fun l hne => update_of_ne hne _ _
  have hself : (s.ghost.acquire t link).place link = .held t := update_self ..
  have hparked : ∀ {l level index}, (s.ghost.acquire t link).place l = .slot level index →
      l ≠ link ∧ s.ghost.place l = .slot level index := by
    intro l level index hp
    have hne : l ≠ link := by rintro rfl; simp [hself] at hp
    exact ⟨hne, hplace l hne ▸ hp⟩
  have hnot : ∀ u, link ∉ s.ghost.held u := by
    intro u hm
    rw [h.handed, hpool] at hm
    simp at hm
  have hduty : ∀ {u link'}, s.ghost.duty u = some link' → link' ≠ link := by
    rintro u _ hu rfl
    obtain ⟨-, l, i, hp⟩ := h.dutyParked u _ hu
    simp [hpool] at hp
  have hdeadline : ∀ l, l ≠ link →
      update s.mem.deadlineTick link deadline l = s.mem.deadlineTick l :=
    fun l hne => update_of_ne hne _ _
  have hcovered : ∀ l, l ≠ link → Covered s l →
      Covered ⟨{ s.mem with deadlineTick := update s.mem.deadlineTick link deadline },
        s.ghost.acquire t link⟩ l := by
    intro l hne hc
    simpa only [Covered, Ghost.acquire, hdeadline l hne] using hc
  constructor
  · exact
      { h with
        slotted := fun l i link' => by
          rw [show link' ∈ (s.ghost.acquire t link).chain l i ↔ _ from h.slotted l i link']
          by_cases hne : link' = link
          · rw [hne, hpool, hself]
            simp
          · rw [hplace link' hne]
        handed := fun u link' => by
          simp only [Ghost.acquire]
          by_cases hne : link' = link
          · subst hne
            rw [update_self]
            by_cases hut : u = t
            · simp [hut]
            · rw [update_of_ne hut]
              exact iff_of_false (hnot u) (by simp [Ne.symm hut])
          · rw [update_of_ne hne, ← h.handed]
            by_cases hut : u = t
            · simp [hut, hne]
            · rw [update_of_ne hut]
        heldNodup := fun u => by
          by_cases hut : u = t
          · simp only [Ghost.acquire, hut, update_self]
            exact nodup_cons.mpr ⟨hnot t, h.heldNodup t⟩
          · simp only [Ghost.acquire, update_of_ne hut]
            exact h.heldNodup u
        inRange := fun link' l i hp => h.inRange link' l i (hparked hp).2
        due := fun link' l i hp => by
          simp only [hdeadline link' (hparked hp).1]
          exact h.due link' l i (hparked hp).2
        limit := fun link' hp => by
          by_cases hne : link' = link
          · simp only [hne, update_self]
            exact hlimit
          · simp only [hdeadline link' hne]
            exact h.limit link' (hplace link' hne ▸ hp)
        parkedLive := fun link' l i hp => h.parkedLive link' l i (hparked hp).2
        liveOut := fun link' hlive => by
          by_cases hne : link' = link
          · rw [hne, hself]
            simp
          · rw [hplace link' hne]
            exact h.liveOut link' hlive
        bits := fun link' l i hp => h.bits link' l i (hparked hp).2
        dutyParked := fun u link' hu => by
          obtain ⟨hin, l, i, hp⟩ := h.dutyParked u link' hu
          exact ⟨hin, l, i, (hplace link' (hduty hu)).trans hp⟩
        unsettled := fun link' l i hp => h.unsettled link' l i (hparked hp).2
        settled := fun link' l i hp hs =>
          hcovered link' (hparked hp).1 (h.settled link' l i (hparked hp).2 hs)
        covers := fun j hj link' l i hp hs hlate => by
          simp only [hdeadline link' (hparked hp).1]
          exact h.covers j hj link' l i (hparked hp).2 hs hlate }
  · exact
      { Guar.refl s with
        chains := fun _ _ => .inl rfl
        held := fun u hu => update_of_ne hu _ _
        cells := fun u _ link' hm => ⟨rfl, hdeadline link' fun heq => hnot u (heq ▸ hm)⟩
        duty := fun u _ link' hd =>
          have hne := hduty hd
          ⟨hd, hplace link' hne, rfl, hdeadline link' hne, fun _ h => h, hcovered link' hne⟩
        announced := fun link' l i hp hs =>
          .inl ⟨(hparked hp).2, hs, hdeadline link' (hparked hp).1, fun _ _ => rfl⟩ }

/-- Thread `t` gives a link back to the pool. -/
theorem recycle (h : Inv role c₀ s) (hheld : link ∈ s.ghost.held t) :
    Keeps role c₀ t s ⟨s.mem, s.ghost.recycle t link⟩ := by
  have hplace : ∀ l, l ≠ link → (s.ghost.recycle t link).place l = s.ghost.place l :=
    fun l hne => update_of_ne hne _ _
  have hself : (s.ghost.recycle t link).place link = .pool := update_self ..
  have hparked : ∀ {l level index}, (s.ghost.recycle t link).place l = .slot level index →
      s.ghost.place l = .slot level index := by
    intro l level index hp
    by_cases hne : l = link
    · rw [hne, hself] at hp
      simp at hp
    · exact hplace l hne ▸ hp
  constructor
  · exact
      { h with
        slotted := fun l i link' => by
          rw [show link' ∈ (s.ghost.recycle t link).chain l i ↔ _ from h.slotted l i link']
          by_cases hne : link' = link
          · rw [hne]
            exact iff_of_false (h.not_parked hheld l i) fun hp => by simp [hself] at hp
          · rw [hplace link' hne]
        handed := handed_erase h hheld (by simp) hself hplace
        heldNodup := heldNodup_erase h link
        inRange := fun link' l i hp => h.inRange link' l i (hparked hp)
        due := fun link' l i hp => h.due link' l i (hparked hp)
        limit := fun link' hp => by
          by_cases hne : link' = link
          · exact absurd (hne ▸ hself) hp
          · exact h.limit link' (hplace link' hne ▸ hp)
        parkedLive := fun link' l i hp => by
          have hne : link' ≠ link := by rintro rfl; exact h.not_parked hheld l i (hparked hp)
          exact (update_of_ne hne _ _).trans (h.parkedLive link' l i (hparked hp))
        liveOut := fun link' hlive => by
          by_cases hne : link' = link
          · rw [hne] at hlive
            exact absurd ((update_self ..).symm.trans hlive) (by simp)
          · rw [hplace link' hne]
            exact h.liveOut link' ((update_of_ne hne _ _).symm.trans hlive)
        account := fun link' => by
          have := h.account link'
          by_cases hne : link' = link
          · subst hne
            by_cases hlive : s.ghost.live link' = true <;> simp_all [Ghost.recycle]
          · by_cases hlive : s.ghost.live link = true <;> simp_all [Ghost.recycle]
        bits := fun link' l i hp => h.bits link' l i (hparked hp)
        dutyParked := fun u link' hu => by
          obtain ⟨hin, l, i, hp⟩ := h.dutyParked u link' hu
          refine ⟨hin, l, i, (hplace link' ?_).trans hp⟩
          rintro rfl
          exact h.duty_ne hheld u hu
        unsettled := fun link' l i hp => h.unsettled link' l i (hparked hp)
        settled := fun link' l i hp => h.settled link' l i (hparked hp)
        covers := fun j hj link' l i hp => h.covers j hj link' l i (hparked hp) }
  · exact
      { Guar.refl s with
        chains := fun _ _ => .inl rfl
        held := fun u hu => update_of_ne hu _ _
        duty := fun u _ link' hd => by
          refine ⟨hd, hplace link' ?_, rfl, rfl, fun _ h => h, fun h => h⟩
          rintro rfl
          exact h.duty_ne hheld u hd
        announced := fun link' l i hp hs => .inl ⟨hparked hp, hs, rfl, fun _ _ => rfl⟩ }

end Inv

end Timers

end Asyncio

import Asyncio.Wheel.Sequential
import Mathlib.Algebra.BigOperators.Group.Finset.Basic
import Mathlib.Algebra.Order.Group.Multiset
import Mathlib.Logic.Relation

/-!
# Every timeout in the sweep of its tick

At any time every slot stands for the first of its windows that is not over yet, and each link in it
is due no earlier than that window starts. What is not over yet differs between the levels while a
tick is swept: for a level that was visited it is everything after the tick.

## Main results

* `Wheel.Placed.insert` — a link that is not due is always accepted
* `Wheel.Inv.step` — one step keeps the invariant
* `Wheel.delivered_exactly` — every accepted link is delivered once, by the sweep of its deadline
-/

namespace Asyncio

namespace Wheel

open Function List

variable {α : Type}

/-! ### What the grid holds -/

/-- All links in all slots. -/
def contents (g : Grid α) : Multiset (Link α) :=
  ∑ k ∈ Finset.range levels ×ˢ Finset.range slots, ((g.slot k.1 k.2).chain : Multiset (Link α))

theorem slot_setSlot (g : Grid α) (level index : ℕ) (slot : Slot α) (level' index' : ℕ) :
    (g.setSlot level index slot).slot level' index' =
      if level' = level ∧ index' = index then slot else g.slot level' index' := rfl

theorem contents_setSlot (g : Grid α) {level index : ℕ} (slot : Slot α) (hl : level < levels)
    (hi : index < slots) :
    contents (g.setSlot level index slot) + ((g.slot level index).chain : Multiset (Link α)) =
      contents g + (slot.chain : Multiset (Link α)) := by
  have hk : (level, index) ∈ Finset.range levels ×ˢ Finset.range slots := by simp [hl, hi]
  have hrest : ∑ k ∈ (Finset.range levels ×ˢ Finset.range slots).erase (level, index),
        (((g.setSlot level index slot).slot k.1 k.2).chain : Multiset (Link α)) =
      ∑ k ∈ (Finset.range levels ×ˢ Finset.range slots).erase (level, index),
        ((g.slot k.1 k.2).chain : Multiset (Link α)) := by
    refine Finset.sum_congr rfl fun k hk' => ?_
    rw [slot_setSlot, if_neg]
    rintro ⟨h1, h2⟩
    exact (Finset.mem_erase.mp hk').1 (Prod.ext h1 h2)
  unfold contents
  rw [← Finset.add_sum_erase _ _ hk, ← Finset.add_sum_erase _ _ hk, hrest, slot_setSlot,
    if_pos ⟨rfl, rfl⟩, add_right_comm, add_comm (slot.chain : Multiset (Link α)),
    add_right_comm]

variable {link : Link α}

theorem mem_contents {g : Grid α} :
    link ∈ contents g ↔
      ∃ level < levels, ∃ index < slots, link ∈ (g.slot level index).chain := by
  simp [contents, Multiset.mem_sum, and_assoc]

/-! ### Where links stand -/

/-- Each slot stands for its first window from its level's front on, and its links are due there or
later. -/
structure Placed (g : Grid α) (front : ℕ → ℕ) : Prop where
  base : ∀ level < levels, ∀ index < slots,
    (g.slot level index).baseTick = nextStart level index (front level) % word
  parked : ∀ level < levels, ∀ index < slots, ∀ link ∈ (g.slot level index).chain,
    nextStart level index (front level) ≤ link.deadlineTick ∧ link.deadlineTick ≤ deadlineLimit

namespace Placed

variable {g : Grid α} {front front' : ℕ → ℕ} {c : ℕ} {link : Link α}

theorem congr (h : Placed g front) (hf : ∀ level < levels, ∀ index < slots,
      nextStart level index (front' level) = nextStart level index (front level)) :
    Placed g front' where
  base level hl index hi := hf level hl index hi ▸ h.base level hl index hi
  parked level hl index hi link hm := hf level hl index hi ▸ h.parked level hl index hi link hm

theorem setSlot (h : Placed g front) {level index : ℕ} {slot : Slot α}
    (hf : ∀ level' < levels, ∀ index' < slots, ¬ (level' = level ∧ index' = index) →
      nextStart level' index' (front' level') = nextStart level' index' (front level'))
    (hbase : slot.baseTick = nextStart level index (front' level) % word)
    (hparked : ∀ link ∈ slot.chain, nextStart level index (front' level) ≤ link.deadlineTick ∧
      link.deadlineTick ≤ deadlineLimit) :
    Placed (g.setSlot level index slot) front' where
  base level' hl index' hi := by
    rw [slot_setSlot]
    split
    · next heq => rw [heq.1, heq.2, hbase]
    · next hne => rw [hf level' hl index' hi hne, h.base level' hl index' hi]
  parked level' hl index' hi link hm := by
    rw [slot_setSlot] at hm
    split at hm
    · next heq => rw [heq.1, heq.2]; exact hparked link hm
    · next hne => rw [hf level' hl index' hi hne]; exact h.parked level' hl index' hi link hm

/-- The window a link is routed to is the one its slot stands for. -/
theorem routed (hf : ∀ level, front level = c ∨ front level = c + 1) {deadline : ℕ}
    (hc : c ≤ deadline) (hopen : front 0 = c ∨ c < deadline) :
    nextStart (route deadline c).level (route deadline c).index (front (route deadline c).level) =
      (route deadline c).expectedBase := by
  have hr := route_spec hc
  have hnext := Window.eq_next (residue_lt hr.index) hr.mod hr.le hr.lt
  rcases hf (route deadline c).level with hfront | hfront
  · rw [hfront]
    exact hnext.symm
  -- the slot of the tick being swept is reopened only for a deadline on level zero
  have hne : c < (route deadline c).expectedBase := by
    by_cases h0 : (route deadline c).level = 0
    · rw [hr.tick h0]
      rw [h0] at hfront
      omega
    · exact hr.ahead h0
  rw [hfront]
  unfold nextStart
  rw [hnext] at hne ⊢
  exact Window.next_eq_of_le (residue_lt hr.index) (Nat.le_succ c) hne

/-- A link whose window is not over is accepted, and stands where it should. -/
theorem insert (h : Placed g front) (hf : ∀ level, front level = c ∨ front level = c + 1)
    (hc : c ≤ link.deadlineTick) (hopen : front 0 = c ∨ c < link.deadlineTick)
    (hlimit : link.deadlineTick ≤ deadlineLimit) :
    ∃ g', timerWheelInsert g link c = some g' ∧ Placed g' front ∧
      contents g' = link ::ₘ contents g ∧ g'.timerCloseCursor = g.timerCloseCursor := by
  have hr := route_spec hc
  have hnext := routed hf hc hopen
  have hbase : (g.slot (route link.deadlineTick c).level
      (route link.deadlineTick c).index).baseTick = (route link.deadlineTick c).expectedBase := by
    rw [h.base _ hr.level _ hr.index, hnext]
    exact Nat.mod_eq_of_lt ((hr.due.trans hlimit).trans_lt (by decide))
  refine ⟨g.setSlot (route link.deadlineTick c).level (route link.deadlineTick c).index
    ⟨link :: (g.slot (route link.deadlineTick c).level (route link.deadlineTick c).index).chain,
      (route link.deadlineTick c).expectedBase⟩, ?_, ?_, ?_, rfl⟩
  · rw [timerWheelInsert, dif_neg (Nat.not_lt.mpr hc)]
    simp only [hbase, if_true]
  · refine h.setSlot (fun _ _ _ _ _ => rfl) ?_ ?_
    · exact hbase.symm.trans (h.base _ hr.level _ hr.index)
    · intro link' hm
      rcases mem_cons.mp hm with rfl | hm
      · exact ⟨hnext ▸ hr.due, hlimit⟩
      · exact h.parked _ hr.level _ hr.index link' hm
  · have := contents_setSlot g ⟨link :: (g.slot (route link.deadlineTick c).level
      (route link.deadlineTick c).index).chain, (route link.deadlineTick c).expectedBase⟩
      hr.level hr.index
    rw [← Multiset.cons_coe, Multiset.add_cons, ← Multiset.cons_add] at this
    exact add_right_cancel this

/-- A link due in the tick being swept is refused once level zero was visited. -/
theorem insert_drained (h : Placed g front) (hfront : front 0 = c + 1)
    (hdue : link.deadlineTick = c) (hlimit : link.deadlineTick ≤ deadlineLimit) :
    timerWheelInsert g link c = none := by
  have hi := slotIndex_lt 0 c
  have hbase : (g.slot 0 (slotIndex 0 c)).baseTick = c + timerWheelPeriod 0 := by
    rw [h.base 0 (by decide) _ hi, hfront, nextStart, Window.next_succ_self (residue_lt hi)]
    · exact Nat.mod_eq_of_lt
        ((Nat.add_le_add_right (hdue ▸ hlimit) (timerWheelPeriod 0)).trans_lt (by decide))
    · exact (mod_period_eq_iff hi).mpr ⟨Nat.mod_one c, rfl⟩
  rw [timerWheelInsert, hdue, dif_neg (Nat.lt_irrefl c), route_self]
  simp [hbase, (period_pos 0).ne']

/-- Every link of a chain is delivered if it is due, and stands where it should otherwise. -/
theorem process (hf : ∀ level, front level = c ∨ front level = c + 1) (chain : List (Link α))
    (hchain : ∀ link ∈ chain, c ≤ link.deadlineTick ∧ link.deadlineTick ≤ deadlineLimit) :
    ∀ {g : Grid α}, Placed g front →
      Placed (timerWheelProcessDetached g chain c).1 front ∧
      contents (timerWheelProcessDetached g chain c).1 +
          ((timerWheelProcessDetached g chain c).2 : Multiset (Link α)) =
        contents g + (chain : Multiset (Link α)) ∧
      (∀ link ∈ (timerWheelProcessDetached g chain c).2, link.deadlineTick = c) ∧
      (timerWheelProcessDetached g chain c).1.timerCloseCursor = g.timerCloseCursor := by
  induction chain with
  | nil => exact fun h => ⟨h, rfl, by simp [timerWheelProcessDetached], rfl⟩
  | cons link next ih =>
    intro g h
    obtain ⟨⟨hle, hlimit⟩, hnext⟩ := forall_mem_cons.mp hchain
    by_cases hdue : link.deadlineTick > c
    · obtain ⟨g', hinsert, h', hcontents, hcursor⟩ := h.insert hf hle (.inr hdue) hlimit
      obtain ⟨hp, hsum, hall, hcur⟩ := ih hnext h'
      simp only [timerWheelProcessDetached, if_pos hdue, hinsert]
      refine ⟨hp, ?_, hall, hcur.trans hcursor⟩
      rw [hsum, hcontents, ← Multiset.cons_coe, Multiset.add_cons, Multiset.cons_add]
    · obtain ⟨hp, hsum, hall, hcur⟩ := ih hnext h
      simp only [timerWheelProcessDetached, if_neg hdue]
      refine ⟨hp, ?_, forall_mem_cons.mpr ⟨by omega, hall⟩, hcur⟩
      rw [← Multiset.cons_coe, ← Multiset.cons_coe, Multiset.add_cons, hsum, Multiset.add_cons]

/-- The window that starts at the tick being swept is emptied and reopened. -/
theorem detach (h : Placed g front) {level : ℕ} (hl : level < levels) (hfront : front level = c)
    (hword : c < word) (haligned : c % timerWheelWidth level = 0) :
    Placed (timerWheelDetach g level c).1 (update front level (c + 1)) ∧
      contents (timerWheelDetach g level c).1 +
          ((timerWheelDetach g level c).2 : Multiset (Link α)) = contents g ∧
      (∀ link ∈ (timerWheelDetach g level c).2,
        c ≤ link.deadlineTick ∧ link.deadlineTick ≤ deadlineLimit) ∧
      (timerWheelDetach g level c).1.timerCloseCursor = g.timerCloseCursor := by
  have hi := slotIndex_lt level c
  have hres := (mod_period_eq_iff hi).mpr ⟨haligned, rfl⟩
  have hself : nextStart level (slotIndex level c) c = c := Window.next_self (residue_lt hi) hres
  have hbase : (g.slot level (slotIndex level c)).baseTick = c := by
    rw [h.base _ hl _ hi, hfront, hself, Nat.mod_eq_of_lt hword]
  have heq : timerWheelDetach g level c =
      (g.setSlot level (slotIndex level c) ⟨[], (c + timerWheelPeriod level) % word⟩,
        (g.slot level (slotIndex level c)).chain) := by
    simp only [timerWheelDetach, hbase, gt_iff_lt, Nat.lt_irrefl, if_false]
  rw [heq]
  refine ⟨h.setSlot ?_ ?_ (by simp), ?_, ?_, rfl⟩
  · intro level' hl' index' hi' hne
    by_cases hlevel : level' = level
    · subst hlevel
      rw [update_self, hfront]
      refine Window.next_succ_of_ne (residue_lt hi') fun hmod => hne ⟨rfl, ?_⟩
      exact ((mod_period_eq_iff hi').mp hmod).2.symm
    · rw [update_of_ne hlevel]
  · rw [update_self]
    exact congrArg (· % word) (Window.next_succ_self (residue_lt hi) hres).symm
  · simpa using contents_setSlot g ⟨[], (c + timerWheelPeriod level) % word⟩ hl hi
  · intro link hm
    have := h.parked _ hl _ hi link hm
    rwa [hfront, hself] at this

/-- One visit: what is due is delivered, the rest stays in the grid. -/
theorem visit (h : Placed g front) (hf : ∀ level, front level = c ∨ front level = c + 1)
    {level : ℕ} (hl : level < levels) (hfront : front level = c) (hword : c < word)
    (haligned : c % timerWheelWidth level = 0) :
    ∃ g' due, timerWheelVisit g level c = (g', due) ∧
      Placed g' (update front level (c + 1)) ∧
      contents g' + (due : Multiset (Link α)) = contents g ∧
      (∀ link ∈ due, link.deadlineTick = c) ∧ g'.timerCloseCursor = g.timerCloseCursor := by
  have hf' : ∀ l, update front level (c + 1) l = c ∨
      update front level (c + 1) l = c + 1 := by
    intro l
    rw [update_apply]
    split
    · exact .inr rfl
    · exact hf l
  obtain ⟨hdetach, hsum, hchain, hcur⟩ := h.detach hl hfront hword haligned
  obtain ⟨hprocess, hsum', hdue, hcur'⟩ := process hf' _ hchain hdetach
  exact ⟨_, _, rfl, hprocess, hsum'.trans hsum, hdue, hcur'.trans hcur⟩

theorem period_dvd_word {level : ℕ} (hl : level < levels) : timerWheelPeriod level ∣ word :=
  Nat.pow_dvd_pow 2 (by simp only [levels, levelBits] at *; omega)

theorem init (hc : c < word) : Placed (timerWheelInit c : Grid α) fun _ => c where
  base level hl index hi := by
    have hp := period_pos level
    have hres : residue level index < timerWheelPeriod level := residue_lt hi
    have hfloor := Nat.div_add_mod' c (timerWheelPeriod level)
    have hmod := Nat.mod_lt c hp
    have hstart : (c / timerWheelPeriod level * timerWheelPeriod level + residue level index) %
        timerWheelPeriod level = residue level index := by
      rw [Nat.mul_add_mod_self_right, Nat.mod_eq_of_lt hres]
    -- the window after the start of the cursor's rotation, or one rotation later
    simp only [timerWheelInit, nextStart]
    split
    · next hlt =>
      congr 1
      refine Window.eq_next hres ?_ ?_ ?_
      · rw [Nat.add_mod_right]
        exact hstart
      · omega
      · omega
    · next hge =>
      obtain ⟨k, hk⟩ := period_dvd_word hl
      have heq := Window.eq_next hres hstart (Nat.le_of_not_lt hge)
        (Nat.add_lt_add_of_le_of_lt (Nat.div_mul_le_self c _) hres)
      have hk' : c / timerWheelPeriod level + 1 ≤ k := by
        refine Nat.div_lt_of_lt_mul ?_
        rwa [← hk]
      rw [← heq]
      refine (Nat.mod_eq_of_lt ?_).symm
      calc c / timerWheelPeriod level * timerWheelPeriod level + residue level index
          < (c / timerWheelPeriod level + 1) * timerWheelPeriod level := by
            rw [Nat.succ_mul]
            exact Nat.add_lt_add_left hres _
        _ ≤ k * timerWheelPeriod level := Nat.mul_le_mul_right _ hk'
        _ = word := by rw [hk, Nat.mul_comm]
  parked := by simp [timerWheelInit]

/-- The cursor may come round: no link is due that late. -/
theorem wrap (h : Placed g fun _ => c + 1) (hc : c < word) :
    Placed { g with timerCloseCursor := (c + 1) % word } fun _ => (c + 1) % word where
  base level hl index hi := by
    rw [show (g.slot level index).baseTick = _ from h.base level hl index hi]
    rcases Nat.lt_or_eq_of_le (Nat.succ_le_of_lt hc) with hlt | heq
    · rw [Nat.mod_eq_of_lt (show c + 1 < word from hlt)]
    · obtain ⟨k, hk⟩ := period_dvd_word hl
      have hround : nextStart level index (0 + word) = nextStart level index 0 + word := by
        rw [hk]
        exact Window.next_add_mul k
      rw [show c + 1 = 0 + word from heq.trans (Nat.zero_add _).symm, hround, Nat.add_mod_right,
        Nat.zero_add, Nat.mod_self]
  parked level hl index hi link hm := by
    have hparked := h.parked level hl index hi link hm
    have hle := Window.le_next (timerWheelPeriod level) (residue level index) (c + 1)
    rw [Nat.mod_eq_of_lt]
    · exact hparked
    · exact (hle.trans (hparked.1.trans hparked.2)).trans_lt (by decide)

end Placed

/-! ### Runs -/

/-- What is over for a level: while a tick is swept, the tick is over for the visited levels. -/
def front (cursor : ℕ) : Option (List ℕ) → ℕ → ℕ
  | none, _ => cursor
  | some todo, level => if level ∈ todo then cursor else cursor + 1

/-- The sweep in progress has drained the level-zero window of its tick. -/
def State.Drained (s : State α) : Prop := ∃ todo, s.sweep = some todo ∧ 0 ∉ todo

theorem front_eq (cursor : ℕ) (sweep : Option (List ℕ)) (level : ℕ) :
    front cursor sweep level = cursor ∨ front cursor sweep level = cursor + 1 := by
  rcases sweep with _ | todo
  · exact .inl rfl
  · simp only [front]
    split
    · exact .inl rfl
    · exact .inr rfl

theorem State.front_zero (s : State α) :
    (s.Drained ∧ front s.grid.timerCloseCursor s.sweep 0 = s.grid.timerCloseCursor + 1) ∨
      (¬ s.Drained ∧ front s.grid.timerCloseCursor s.sweep 0 = s.grid.timerCloseCursor) := by
  unfold State.Drained
  rcases s.sweep with _ | todo
  · simp [front]
  · by_cases h : 0 ∈ todo <;> simp [front, h]

theorem visits_nodup (tick : ℕ) : (visits tick).Nodup :=
  List.Sublist.nodup (List.Sublist.append_right filter_sublist [0])
    (by decide : ([3, 2, 1] ++ [0]).Nodup)

structure Inv (s : State α) : Prop where
  cursor : s.grid.timerCloseCursor < word
  sweep : ∀ todo, s.sweep = some todo → todo <:+ visits s.grid.timerCloseCursor
  placed : Placed s.grid (front s.grid.timerCloseCursor s.sweep)
  /-- Nothing is lost, nothing delivered twice. -/
  account : (s.accepted : Multiset (Link α)) =
    contents s.grid + (s.delivered.map Prod.fst : Multiset (Link α))
  delivered : ∀ d ∈ s.delivered, d.2 = d.1.deadlineTick
  clock : s.now < word
  /-- Sweeps trail the clock. -/
  punctual : s.punctual = true → s.grid.timerCloseCursor ≤ getMonotonicTicks s.now ∧
    (s.sweep ≠ none → s.grid.timerCloseCursor < getMonotonicTicks s.now)
  /-- A timeout comes after the end of its deadline's tick. -/
  timedOut : s.punctual = true → ∀ d ∈ s.timedOut,
    (d.1.deadlineTick + 1) * tickMicroseconds ≤ d.2 ∧ d.2 < word

namespace Inv

variable {s s' : State α}

theorem initial {c now : ℕ} (hc : c < word) (hnow : now < word) :
    Inv (State.initial c now : State α) where
  cursor := hc
  sweep _ h := nomatch h
  placed := Placed.init hc
  account := by simp [State.initial, contents, timerWheelInit]
  delivered _ h := nomatch h
  clock := hnow
  punctual hp := ⟨of_decide_eq_true hp, fun h => absurd rfl h⟩
  timedOut _ _ h := nomatch h

theorem elapse (h : Inv s) {now : ℕ} (hle : s.now ≤ now) (hlt : now < word) :
    Inv { s with now := now } where
  cursor := h.cursor
  sweep := h.sweep
  placed := h.placed
  account := h.account
  delivered := h.delivered
  clock := hlt
  punctual hp := by
    have hticks : getMonotonicTicks s.now ≤ getMonotonicTicks now := Nat.div_le_div_right hle
    exact ⟨(h.punctual hp).1.trans hticks, fun hs => ((h.punctual hp).2 hs).trans_le hticks⟩
  timedOut := h.timedOut

/-- An arm is refused late, or accepted and stands where it should. -/
theorem insert_cases (h : Inv s) (hlimit : link.deadlineTick ≤ deadlineLimit) :
    ((link.deadlineTick < s.grid.timerCloseCursor ∨
        (link.deadlineTick = s.grid.timerCloseCursor ∧ s.Drained)) ∧
      timerWheelInsert s.grid link s.grid.timerCloseCursor = none) ∨
    (¬ (link.deadlineTick < s.grid.timerCloseCursor ∨
        (link.deadlineTick = s.grid.timerCloseCursor ∧ s.Drained)) ∧
      ∃ g, timerWheelInsert s.grid link s.grid.timerCloseCursor = some g ∧
        Placed g (front s.grid.timerCloseCursor s.sweep) ∧ contents g = link ::ₘ contents s.grid ∧
        g.timerCloseCursor = s.grid.timerCloseCursor) := by
  by_cases hlate : link.deadlineTick < s.grid.timerCloseCursor
  · refine .inl ⟨.inl hlate, ?_⟩
    rw [timerWheelInsert, dif_pos hlate]
  by_cases hdrained : link.deadlineTick = s.grid.timerCloseCursor ∧ s.Drained
  · have hfront := (s.front_zero.resolve_right fun hf => hf.1 hdrained.2).2
    exact .inl ⟨.inr hdrained, h.placed.insert_drained hfront hdrained.1 hlimit⟩
  · refine .inr ⟨fun hor => hor.elim hlate hdrained,
      h.placed.insert (front_eq _ _) (Nat.le_of_not_lt hlate) ?_ hlimit⟩
    rcases s.front_zero with hf | hf
    · exact .inr (lt_of_le_of_ne (Nat.le_of_not_lt hlate) fun heq => hdrained ⟨heq.symm, hf.1⟩)
    · exact .inl hf.2

/-- When an arm is refused. -/
theorem refused_iff (h : Inv s) (hlimit : link.deadlineTick ≤ deadlineLimit) :
    timerWheelInsert s.grid link s.grid.timerCloseCursor = none ↔
      link.deadlineTick < s.grid.timerCloseCursor ∨
        (link.deadlineTick = s.grid.timerCloseCursor ∧ s.Drained) := by
  rcases h.insert_cases hlimit with ⟨hlate, hnone⟩ | ⟨hearly, g, hsome, -⟩
  · exact ⟨fun _ => hlate, fun _ => hnone⟩
  · exact ⟨fun hnone => (nomatch hsome.symm.trans hnone), fun hlate => absurd hlate hearly⟩

/-- A tick below the clock's has ended. -/
theorem tick_ended {tick now : ℕ} (h : tick < getMonotonicTicks now) :
    (tick + 1) * tickMicroseconds ≤ now :=
  Nat.mul_le_of_le_div _ _ _ h

theorem arm (h : Inv s) (hlimit : link.deadlineTick ≤ deadlineLimit) :
    Inv (s.arm link) := by
  unfold State.arm
  rcases h.insert_cases hlimit with ⟨hlate, hnone⟩ | ⟨-, g, hsome, hplaced, hcontents, hcursor⟩
  · rw [hnone]
    refine { h with timedOut := fun hp => forall_mem_cons.mpr ⟨?_, h.timedOut hp⟩ }
    refine ⟨tick_ended ?_, h.clock⟩
    rcases hlate with hlate | ⟨hdue, todo, hs, -⟩
    · exact hlate.trans_le (h.punctual hp).1
    · exact hdue ▸ (h.punctual hp).2 (by simp [hs])
  · rw [hsome]
    exact
      { cursor := hcursor ▸ h.cursor
        sweep := hcursor.symm ▸ h.sweep
        placed := hcursor.symm ▸ hplaced
        account := by
          change (↑(link :: s.accepted) : Multiset (Link α)) = contents g + _
          rw [← Multiset.cons_coe, h.account, hcontents, Multiset.cons_add]
        delivered := h.delivered
        clock := h.clock
        punctual := hcursor.symm ▸ h.punctual
        timedOut := h.timedOut }

theorem begin (h : Inv s) (hs : s.sweep = none) : Inv
    { s with
      sweep := some (visits s.grid.timerCloseCursor)
      punctual := s.punctual && decide (s.grid.timerCloseCursor < getMonotonicTicks s.now) } where
  cursor := h.cursor
  sweep todo htodo := by cases htodo; exact suffix_rfl
  placed := by
    refine h.placed.congr fun level hl index hi => ?_
    simp only [front, hs]
    split
    · rfl
    -- a level that is not on a window boundary has no window to visit at this tick
    · next hnot =>
      refine Window.next_succ_of_ne (residue_lt hi) fun hmod => hnot ?_
      exact mem_visits.mpr ⟨hl, ((mod_period_eq_iff hi).mp hmod).1⟩
  account := h.account
  delivered := h.delivered
  clock := h.clock
  punctual hp := by
    obtain ⟨hp, hlt⟩ := Bool.and_eq_true_iff.mp hp
    exact ⟨(h.punctual hp).1, fun _ => of_decide_eq_true hlt⟩
  timedOut hp := h.timedOut (Bool.and_eq_true_iff.mp hp).1

theorem visit (h : Inv s) {level : ℕ} {rest : List ℕ} (hs : s.sweep = some (level :: rest)) :
    Inv (s.visit level rest) := by
  have hsuffix := h.sweep _ hs
  obtain ⟨hl, haligned⟩ := mem_visits.mp (hsuffix.subset mem_cons_self)
  have hnot : level ∉ rest := (nodup_cons.mp (hsuffix.sublist.nodup (visits_nodup _))).1
  have hfront : update (front s.grid.timerCloseCursor s.sweep) level
      (s.grid.timerCloseCursor + 1) = front s.grid.timerCloseCursor (some rest) := by
    funext l
    by_cases hlevel : l = level
    · subst hlevel
      simp [front, hnot]
    · simp [front, hs, hlevel]
  obtain ⟨g, due, heq, hplaced, hsum, hdue, hcursor⟩ := h.placed.visit (front_eq _ _) hl
    (by simp [front, hs]) h.cursor haligned
  rw [hfront] at hplaced
  have hlt := fun hp => (h.punctual hp).2 (by simp [hs])
  simp only [State.visit, heq]
  exact
    { cursor := hcursor.symm ▸ h.cursor
      sweep := by
        rintro _ ⟨⟩
        exact hcursor.symm ▸ (suffix_cons level rest).trans hsuffix
      placed := hcursor.symm ▸ hplaced
      account := by
        simp only [map_append, map_map]
        rw [h.account, ← hsum, ← Multiset.coe_add, add_assoc]
        simp [Function.comp_def]
      delivered := by
        intro d hd
        rcases mem_append.mp hd with hd | hd
        · obtain ⟨link, hlink, rfl⟩ := mem_map.mp hd
          exact (hdue link hlink).symm
        · exact h.delivered d hd
      clock := h.clock
      punctual := fun hp => hcursor.symm ▸ ⟨(hlt hp).le, fun _ => hlt hp⟩
      timedOut := fun hp d hd => by
        rcases mem_append.mp hd with hd | hd
        · obtain ⟨link, hlink, rfl⟩ := mem_map.mp hd
          exact ⟨tick_ended ((hdue link hlink).trans_lt (hlt hp)), h.clock⟩
        · exact h.timedOut hp d hd }

theorem confirm (h : Inv s) (hs : s.sweep = some []) : Inv
    { s with
      sweep := none
      grid := { s.grid with timerCloseCursor := (s.grid.timerCloseCursor + 1) % word } } where
  cursor := Nat.mod_lt _ (by decide)
  sweep _ htodo := nomatch htodo
  placed := by
    have hplaced : Placed s.grid fun _ => s.grid.timerCloseCursor + 1 :=
      h.placed.congr fun _ _ _ _ => by simp [front, hs]
    exact hplaced.wrap h.cursor
  account := h.account
  delivered := h.delivered
  clock := h.clock
  punctual hp := by
    have hlt := (h.punctual hp).2 (by simp [hs])
    exact ⟨(Nat.mod_le _ _).trans hlt, fun hne => absurd rfl hne⟩
  timedOut := h.timedOut

theorem step (h : Inv s) (hstep : Step s s') : Inv s' := by
  cases hstep with
  | elapse now hle hlt => exact h.elapse hle hlt
  | arm link hlimit => exact h.arm hlimit
  | begin hs => exact h.begin hs
  | visit level rest hs => exact h.visit hs
  | confirm hs => exact h.confirm hs

theorem run (h : Inv s) (hrun : Relation.ReflTransGen Step s s') : Inv s' := by
  induction hrun with
  | refl => exact h
  | tail _ hstep ih => exact ih.step hstep

end Inv

/-- A timeout that comes after its deadline's tick has waited for as long as was asked. -/
theorem elapsed_of_ended {armedAt timeout deadline time : ℕ}
    (harmed : deadline = opArmTimer (getMonotonicTicks armedAt) timeout)
    (hended : (deadline + 1) * tickMicroseconds ≤ time) (htime : time < word) :
    armedAt + timeout ≤ time := by
  have hdelta : timeout ≤ (timeout / tickMicroseconds +
      if timeout % tickMicroseconds ≠ 0 then 1 else 0) * tickMicroseconds := by
    by_cases h0 : timeout % tickMicroseconds = 0
    · rw [if_neg (not_not.mpr h0), Nat.add_zero, Nat.div_mul_cancel (Nat.dvd_of_mod_eq_zero h0)]
    · rw [if_pos h0]
      exact (Nat.lt_mul_div_succ timeout (by decide)).le.trans_eq (Nat.mul_comm _ _)
  simp only [opArmTimer] at harmed
  generalize (timeout / tickMicroseconds +
      if timeout % tickMicroseconds ≠ 0 then 1 else 0) = deltaTick at harmed hdelta
  split at harmed
  -- the last deadline is not over before the clock is
  · have hlast : word ≤ (deadlineLimit + 1) * tickMicroseconds := by decide
    rw [harmed] at hended
    omega
  · simp only [getMonotonicTicks, tickMicroseconds] at harmed hended hdelta
    omega

/-- From any tick, with arms at any time and sweeps of the tick at the cursor: an arm is refused only
late, an accepted link is delivered once, by the sweep of its deadline, and where the sweeps trail
the clock no timeout comes before its time has passed. -/
theorem delivered_exactly {c now : ℕ} (hc : c < word) (hnow : now < word) {s : State α}
    (hrun : Relation.ReflTransGen Step (State.initial c now) s) :
    (∀ link : Link α, link.deadlineTick ≤ deadlineLimit →
      (timerWheelInsert s.grid link s.grid.timerCloseCursor = none ↔
        link.deadlineTick < s.grid.timerCloseCursor ∨
          (link.deadlineTick = s.grid.timerCloseCursor ∧ s.Drained))) ∧
    (s.accepted : Multiset (Link α)) =
      contents s.grid + (s.delivered.map Prod.fst : Multiset (Link α)) ∧
    (∀ d ∈ s.delivered, d.2 = d.1.deadlineTick) ∧
    (∀ link ∈ contents s.grid, s.grid.timerCloseCursor ≤ link.deadlineTick ∧
      (s.sweep = some [] → s.grid.timerCloseCursor < link.deadlineTick)) ∧
    (s.punctual = true → ∀ d ∈ s.timedOut, ∀ armedAt timeout,
      d.1.deadlineTick = opArmTimer (getMonotonicTicks armedAt) timeout →
        armedAt + timeout ≤ d.2) := by
  have h := (Inv.initial hc hnow).run hrun
  refine ⟨fun _ hlimit => h.refused_iff hlimit, h.account, h.delivered, ?_, ?_⟩
  · intro link hm
    obtain ⟨level, hl, index, hi, hm⟩ := mem_contents.mp hm
    have hparked := (h.placed.parked level hl index hi link hm).1
    have hle := Window.le_next (timerWheelPeriod level) (residue level index)
      (front s.grid.timerCloseCursor s.sweep level)
    refine ⟨?_, fun hs => ?_⟩
    · rcases front_eq s.grid.timerCloseCursor s.sweep level with hf | hf <;>
        exact (by rw [nextStart] at hparked; omega)
    · rw [nextStart, hs] at hparked
      rw [hs] at hle
      exact hle.trans hparked
  · intro hp d hd armedAt timeout harmed
    exact elapsed_of_ended harmed (h.timedOut hp d hd).1 (h.timedOut hp d hd).2

/-- While tick 3 is swept and not yet drained, a deadline at 2 is late and one at 3 is not. -/
theorem delivered_exactly_begun :
    timerWheelInsert (timerWheelInit 3) (⟨(), 2⟩ : Link Unit) 3 = none ∧
      timerWheelInsert (timerWheelInit 3) (⟨(), 3⟩ : Link Unit) 3 ≠ none := by
  have h := (delivered_exactly (c := 3) (by decide) (by decide)
    (.single (.begin (State.initial 3 500000 : State Unit) rfl))).1
  refine ⟨(h ⟨(), 2⟩ (by decide)).mpr (.inl (by decide)), fun hnone => ?_⟩
  rcases (h ⟨(), 3⟩ (by decide)).mp hnone with hlt | ⟨-, todo, htodo, hnot⟩
  · exact absurd hlt (by decide)
  · cases htodo
    exact hnot (mem_visits.mpr ⟨by decide, Nat.mod_one 3⟩)

end Wheel

end Asyncio

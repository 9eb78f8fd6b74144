import Asyncio.Timers.Sleep
import Asyncio.Wheel.Exact

/-!
# The timeout grid in any interleaving

Any number of loop threads, each with a loop state of its own, and any number of other threads arm
timers and sweep. Each atomic access is one step, and the steps come in any order.

## Main results

* `Timers.custody` — no link is lost, duplicated or delivered early
* `Timers.covered_while_asleep` — no wakeup is lost
-/

namespace Asyncio

namespace Timers

open Concurrent Wheel

variable {ℓ τ : Type} {n : ℕ} {role : τ → Option (Fin n)} {c₀ : ℕ} {t : τ} {j : Fin n}

/-! ### Threads -/

section Threads

variable [DecidableEq ℓ] [DecidableEq τ]

/-- What each thread runs, by its loop state. -/
def threads (role : τ → Option (Fin n)) (t : τ) : Prog (State ℓ τ n) Unit :=
  match role t with
  | some j => loopThread t j
  | none => otherThread t

omit [DecidableEq ℓ] [DecidableEq τ] in
theorem outline_readClock {P : State ℓ τ n → Prop} (hP : Stable (terms role c₀ t) P) :
    Outline (terms role c₀ t) P readClock fun currentTick s => P s ∧ Clocked currentTick s :=
  outline_load hP (fun _ => hP.and (stable_clocked _)) fun _ _ hs => ⟨hs, le_rfl⟩

theorem outline_loopThread (hrole : Distinct role) (hj : role t = some j) :
    Outline (terms role c₀ t)
      (fun s : State ℓ τ n => Idle t [] false s ∧ s.mem.wakeTick j = awake)
      (loopThread t j) fun _ _ => True := by
  have hpresent : Stable (terms role c₀ t) (Present t j : State ℓ τ n → Prop) :=
    stable_present hrole hj
  have hawake : Stable (terms role c₀ t) fun s : State ℓ τ n => s.mem.wakeTick j = awake :=
    stable_of_guar fun s s' u hu _ _ hg hs =>
      (hg.loop j fun huj => hu (hrole u t j huj hj)).1.trans hs
  have hregistered : Stable (terms role c₀ t) fun s : State ℓ τ n => s.ghost.registered j = true :=
    stable_of_guar fun s s' u _ _ _ hg hs => hg.stays j hs
  refine .bind (M := fun _ => Present t j) (outline_store (stable_idle.and hawake)
    (fun _ => hpresent) fun s hi hs => ?_) fun _ =>
    .loop (fun _ => Present t j) () (fun _ => ?_) fun _ => Stable.pure True
  · exact ⟨hi.register hj hs.2, { hs.1 with }, Function.update_self ..⟩
  have hclocked : ∀ currentTick, Stable (terms role c₀ t) fun s : State ℓ τ n =>
      Present t j s ∧ Clocked currentTick s := fun _ => hpresent.and (stable_clocked _)
  refine .bind (outline_armAny.frame hregistered fun s s' _ _ hg hs => hg.stays j hs) fun _ =>
    .bind (outline_readClock hpresent) fun sleepFrom =>
    .bind (outline_timerLoopPrepareSleep hrole hj) fun _ =>
    .bind (outline_kernelWait hrole hj) fun _ =>
    .bind (outline_timerLoopCancelSleep hrole hj) fun _ =>
    .bind (outline_readClock hpresent) fun currentTick =>
    .bind (M := fun _ => Present t j) ?_ fun _ => outline_ret hpresent fun s _ hs => hs
  have hqueue : Outline (terms role c₀ t)
      (fun s : State ℓ τ n => (Idle t [] false s ∧ Clocked currentTick s) ∧
        s.ghost.registered j = true)
      (processTimeoutQueue t (role t) currentTick)
      fun _ s => (Idle t [] false s ∧ Clocked currentTick s) ∧ s.ghost.registered j = true :=
    (outline_processTimeoutQueue hrole currentTick).frame hregistered
      fun s s' _ _ hg hs => hg.stays j hs
  rw [hj] at hqueue
  exact (hqueue.pre (hclocked currentTick) fun s _ hs => ⟨⟨hs.1.1, hs.2⟩, hs.1.2⟩).post
    fun _ s _ hs => ⟨hs.1.1, hs.2⟩

theorem outline_otherThread (hrole : Distinct role) (hj : role t = none) :
    Outline (terms role c₀ t) (Idle t [] false : State ℓ τ n → Prop)
      (otherThread t) fun _ _ => True := by
  refine .loop (fun _ => Idle t [] false) () (fun _ => ?_) fun _ => Stable.pure True
  have hqueue : ∀ currentTick, Outline (terms role c₀ t)
      (fun s : State ℓ τ n => Idle t [] false s ∧ Clocked currentTick s)
      (processTimeoutQueue t none currentTick)
      fun _ s => Idle t [] false s ∧ Clocked currentTick s :=
    fun currentTick => hj ▸ outline_processTimeoutQueue hrole currentTick
  refine .bind outline_armAny fun _ => .bind (outline_readClock stable_idle) fun currentTick =>
    .bind (hqueue currentTick) fun _ =>
    .bind (M := fun _ => Idle t [] false) (.pick (stable_idle.and (stable_clocked _))
      (fun _ => stable_idle) ?_) fun ring =>
    .bind (M := fun _ => Idle t [] false) ?_ fun _ =>
    .bind (M := fun _ => Idle t [] false) (.pick stable_idle (fun _ => stable_idle) ?_) fun _ =>
    outline_ret stable_idle fun s _ hs => hs
  · rintro s _ s' rfl hi hs
    exact ⟨hi, Guar.refl s', hs.1⟩
  · cases ring with
    | false => exact outline_ret stable_idle fun s _ hs => hs
    | true =>
      simp only [if_true, wakeupLoop]
      exact outline_store stable_idle (fun _ => stable_idle) fun s hi hs => ⟨hi.ring, { hs with }⟩
  · rintro s _ s' ⟨now, hle, hlt, rfl⟩ hi hs
    obtain ⟨hi', hg⟩ := hi.elapse hle hlt (t := t)
    exact ⟨hi', hg, { hs with }⟩

end Threads

/-! ### The start -/

/-- A base as it is created when the clock shows `now`, with the grid set up at tick `c`. The cells
of the link pool hold anything. -/
def State.initial (next : ℓ → Option ℓ) (deadlineTick : ℓ → ℕ) (c now : ℕ) : State ℓ τ n where
  mem :=
    { low := fun _ _ => none
      high := fun level index => ((timerWheelInit c : Grid Unit).slot level index).baseTick
      occupancy := fun _ _ => false
      timerCloseCursor := (timerWheelInit c : Grid Unit).timerCloseCursor
      next := next
      deadlineTick := deadlineTick
      wakeTick := fun _ => awake
      preclearSequence := fun _ => 0
      overflowEpoch := 0
      overflowActive := 0
      doorbell := false
      now := now }
  ghost :=
    { place := fun _ => .pool
      chain := fun _ _ => []
      held := fun _ => []
      live := fun _ => false
      accepted := fun _ => 0
      recycled := fun _ => 0
      drained := []
      refused := []
      timeouts := []
      stage := fun _ => .pushed
      duty := fun _ => none
      late := fun _ _ => false
      bracket := fun _ => false
      clearing := fun _ => none
      overflowing := []
      inside := fun _ => false
      registered := fun _ => false
      asleep := fun _ => false
      answering := fun _ => false }

section Start

variable {next : ℓ → Option ℓ} {deadlineTick : ℓ → ℕ} {now : ℕ}

/-- At the start every slot stands for its next window. -/
theorem initial_high (hc : c₀ ≤ getMonotonicTicks now) (hnow : now < word) {level index : ℕ}
    (hl : level < levels) (hindex : index < slots) :
    (State.initial next deadlineTick c₀ now : State ℓ τ n).mem.high level index =
      nextStart level index c₀ := by
  have hticks : getMonotonicTicks now ≤ getMonotonicTicks word := Nat.div_le_div_right hnow.le
  have hlt : nextStart level index c₀ < c₀ + timerWheelPeriod level :=
    Window.next_lt (period_pos level)
  have hperiod : timerWheelPeriod level ≤ range :=
    Nat.pow_le_pow_right (by decide) (Nat.mul_le_mul_left _ hl)
  have hword : getMonotonicTicks word + range < word := by decide
  refine ((Placed.init (α := Unit) (c := c₀) (by omega)).base level hl index hindex).trans ?_
  exact Nat.mod_eq_of_lt (by omega)

theorem Inv.initial (hc : c₀ ≤ getMonotonicTicks now) (hnow : now < word) :
    Inv role c₀ (State.initial next deadlineTick c₀ now : State ℓ τ n) := by
  have hhigh : ∀ level < levels, ∀ index < slots,
      (State.initial next deadlineTick c₀ now : State ℓ τ n).mem.high level index =
        nextStart level index c₀ := fun level hl index hindex => initial_high hc hnow hl hindex
  exact
    { mod := fun level hl index hindex => by
        rw [hhigh level hl index hindex]
        exact Window.next_mod (residue_lt hindex)
      lower := fun level hl index hindex => (hhigh level hl index hindex).ge
      upper := fun level hl index hindex => by
        rw [hhigh level hl index hindex]
        exact Window.next_mono (residue_lt hindex) (Nat.le_succ _)
      started := le_rfl
      trails := hc
      clock := hnow
      linked := fun _ _ => rfl
      slotted := fun _ _ _ => by simp [State.initial]
      chainNodup := fun _ _ => List.nodup_nil
      handed := fun _ _ => by simp [State.initial]
      heldNodup := fun _ => List.nodup_nil
      inRange := fun _ _ _ hp => by simp [State.initial] at hp
      due := fun _ _ _ hp => by simp [State.initial] at hp
      limit := fun _ hp => absurd rfl hp
      parkedLive := fun _ _ _ hp => by simp [State.initial] at hp
      liveOut := fun _ hl => by simp [State.initial] at hl
      account := fun _ => rfl
      drainedBelow := fun _ hd => by simp [State.initial] at hd
      drainedOnce := List.Pairwise.nil
      drainedAll := fun level hl index hindex start hmod hge hlt => by
        -- the slot's first window from the start on is its next one
        rw [hhigh level hl index hindex] at hlt
        have hnext := Window.next_self (residue_lt hindex) hmod
        exact absurd (hlt.trans_le (Window.next_mono (residue_lt hindex) hge)) (by
          rw [hnext]
          exact lt_irrefl _)
      drainedOver := fun _ hd => by simp [State.initial] at hd
      refusedLate := fun _ hd => by simp [State.initial] at hd
      timeoutsOver := fun _ hd => by simp [State.initial] at hd
      bits := fun _ _ _ hp => by simp [State.initial] at hp
      clearingOpen := fun _ hu => absurd rfl hu
      parity := fun _ _ _ => rfl
      overflow := fun _ => by simp [State.initial]
      overflowNodup := List.nodup_nil
      active := rfl
      dutyParked := fun _ _ hd => by simp [State.initial] at hd
      dutyOnce := fun _ _ _ hd => by simp [State.initial] at hd
      unsettled := fun _ _ _ hp => by simp [State.initial] at hp
      settled := fun _ _ _ hp => by simp [State.initial] at hp
      present := fun _ hw => absurd rfl hw
      aware := fun _ _ _ => rfl
      asleepPublished := fun _ ha => by simp [State.initial] at ha
      covers := fun _ ha => by simp [State.initial] at ha }

end Start

section Runs

variable [DecidableEq ℓ] [DecidableEq τ] {next : ℓ → Option ℓ} {deadlineTick : ℓ → ℕ} {now : ℕ}
  {c : Config (State ℓ τ n) τ}

/-- What each thread starts with. -/
def Begins (role : τ → Option (Fin n)) (t : τ) (s : State ℓ τ n) : Prop :=
  Idle t [] false s ∧ ∀ j, role t = some j → s.mem.wakeTick j = awake

theorem outline_threads (hrole : Distinct role) (t : τ) :
    Outline (poolTerms (Inv role c₀) (Guar role) t) (Begins role t : State ℓ τ n → Prop)
      (threads role t) fun _ _ => True := by
  have hbegins : Stable (terms role c₀ t) (Begins role t : State ℓ τ n → Prop) :=
    stable_of_guar fun s s' u hu hi hi' hg hs =>
      ⟨stable_idle s s' hi hi' ⟨u, hu, hg⟩ hs.1, fun j hj =>
        (hg.loop j fun huj => hu (hrole u t j huj hj)).1.trans (hs.2 j hj)⟩
  unfold threads
  rcases hj : role t with _ | j
  · exact (outline_otherThread hrole hj).pre hbegins fun s _ hs => hs.1
  · exact (outline_loopThread hrole hj).pre hbegins fun s _ hs => ⟨hs.1, hs.2 j hj⟩

omit [DecidableEq ℓ] [DecidableEq τ] in
theorem Begins.initial (t : τ) :
    Begins role t (State.initial next deadlineTick c₀ now : State ℓ τ n) :=
  ⟨⟨rfl, rfl, rfl, rfl, rfl⟩, fun _ _ => rfl⟩

theorem Inv.of_run (hrole : Distinct role) (hc : c₀ ≤ getMonotonicTicks now) (hnow : now < word)
    (hrun : Run ⟨State.initial next deadlineTick c₀ now, threads role⟩ c) :
    Inv role c₀ c.shared :=
  invariant_of_outlines (Inv.initial hc hnow) Begins.initial (outline_threads hrole) hrun

/-- Every step is one that some thread guarantees. -/
theorem Guar.of_step (hrole : Distinct role) (hc : c₀ ≤ getMonotonicTicks now) (hnow : now < word)
    (hrun : Run ⟨State.initial next deadlineTick c₀ now, threads role⟩ c)
    {c' : Config (State ℓ τ n) τ} (hstep : PoolStep c c') :
    ∃ t, Guar role t c.shared c'.shared := by
  rcases guarantee_of_outlines (Inv.initial hc hnow) Begins.initial (outline_threads hrole) hrun
    hstep with heq | hg
  · rw [heq]
    exact ⟨hstep.choose, Guar.refl _⟩
  · exact hg

/-- One loop thread, and another thread. -/
def pair : Bool → Option (Fin 1)
  | true => some 0
  | false => none

/-- The start of their run, at time zero. -/
def pairStart : State Unit Bool 1 := State.initial (fun _ => none) (fun _ => 0) 0 0

theorem distinct_pair : Distinct pair := by
  intro u v j hu hv
  cases u <;> cases v <;> simp_all [pair]

unseal slots in
/-- The other thread arms a timer that is due at once, and then the loop goes to sleep. -/
theorem exists_asleep_pair : ∃ c, Run ⟨pairStart, threads pair⟩ c ∧
    (∀ t, c.shared.ghost.inside t = false) ∧ c.shared.ghost.registered 0 = true ∧
    c.shared.ghost.asleep 0 = true ∧ c.shared.mem.doorbell = false ∧
    c.shared.ghost.answering 0 = false ∧ c.shared.ghost.chain 0 0 = [()] ∧
    c.shared.ghost.live () = true := by
  apply Exists.intro
  apply And.intro
  · apply Relation.ReflTransGen.trans
    · apply Run.of_steps (t := false)
      exact .loop (.bind (.bind (.loop (.bind (.seq (.pick (x := true) rfl)
        (.bind (.seq (.pick (x := some ()) ⟨rfl, 0, Nat.zero_le _, rfl⟩)
          (Prog.steps_of_eval 5 rfl)) _)) _)) _) _)
    · apply Run.of_steps (t := true)
      exact Steps.seq (Prog.steps_of_eval 5 rfl) (.loop (.bind (.seq
        (.loop (.seq (.seq (.pick (x := false) rfl) (.refl _ _)) (.refl _ _)))
        (.seq (Prog.steps_of_eval 5 rfl) (.bind (Prog.steps_of_eval 5 rfl) _))) _))
  · refine ⟨fun t => ?_, rfl, rfl, rfl, rfl, rfl, rfl⟩
    cases t <;> rfl

/-- **No link is lost, duplicated or early.** In every reachable state:

* the next step of whatever thread leaves a slot's chain alone, puts one link of the thread's own in
  front of it, or takes it as a whole into the thread's hands and drains its window;
* no window was drained twice, and every window that is over since the start was drained;
* the memory of a slot is its chain; an accepted link that is not recycled is in one chain, once, or
  in the hands of one thread, once; it was accepted once more than it was recycled, and any other as
  often;
* a link is parked in a window that starts no later than its deadline and was not drained;
* a publication was refused only where the cursor had passed the deadline, or the level-zero window
  of the deadline was drained, and nothing times out before the end of its deadline's tick. -/
theorem custody (hrole : Distinct role) (hc : c₀ ≤ getMonotonicTicks now) (hnow : now < word)
    (hrun : Run ⟨State.initial next deadlineTick c₀ now, threads role⟩ c) :
    (∀ c', PoolStep c c' → ∃ t, ∀ level index,
      c'.shared.ghost.chain level index = c.shared.ghost.chain level index ∨
      (∃ link ∈ c.shared.ghost.held t,
        c'.shared.ghost.chain level index = link :: c.shared.ghost.chain level index ∧
        c'.shared.mem.high level index = c.shared.mem.high level index) ∨
      (c'.shared.ghost.chain level index = [] ∧
        c'.shared.ghost.held t = c.shared.ghost.chain level index ∧
        c'.shared.ghost.drained =
          ⟨level, index, c.shared.mem.high level index, t⟩ :: c.shared.ghost.drained)) ∧
    (c.shared.ghost.drained.Pairwise fun d e =>
      ¬ (d.level = e.level ∧ d.index = e.index ∧ d.baseTick = e.baseTick)) ∧
    (∀ level < levels, ∀ index < slots, ∀ start,
      start % timerWheelPeriod level = residue level index → c₀ ≤ start →
      start < c.shared.mem.high level index →
      ∃ d ∈ c.shared.ghost.drained, d.level = level ∧ d.index = index ∧ d.baseTick = start) ∧
    (∀ level index, Chain some c.shared.mem.next (c.shared.mem.low level index)
      (c.shared.ghost.chain level index) none) ∧
    (∀ link, c.shared.ghost.live link = true →
      ((∃! slot : ℕ × ℕ, (c.shared.ghost.chain slot.1 slot.2).count link = 1) ∧
        ∀ u, link ∉ c.shared.ghost.held u) ∨
      ((∃! u, (c.shared.ghost.held u).count link = 1) ∧
        ∀ level index, link ∉ c.shared.ghost.chain level index)) ∧
    (∀ link, c.shared.ghost.accepted link = c.shared.ghost.recycled link +
      if c.shared.ghost.live link = true then 1 else 0) ∧
    (∀ level index, ∀ link ∈ c.shared.ghost.chain level index,
      c.shared.mem.high level index ≤ c.shared.mem.deadlineTick link ∧
      ∀ d ∈ c.shared.ghost.drained,
        ¬ (d.level = level ∧ d.index = index ∧ d.baseTick = c.shared.mem.high level index)) ∧
    (∀ deadline ∈ c.shared.ghost.refused, deadline < c.shared.mem.timerCloseCursor ∨
      ∃ d ∈ c.shared.ghost.drained,
        d.level = 0 ∧ d.index = slotIndex 0 deadline ∧ d.baseTick = deadline) ∧
    (∀ deadline ∈ c.shared.ghost.refused, deadline < getMonotonicTicks c.shared.mem.now) ∧
    ∀ p ∈ c.shared.ghost.timeouts, p.1 < getMonotonicTicks p.2 := by
  have hi := Inv.of_run hrole hc hnow hrun
  refine ⟨fun c' hstep => ?_, hi.drainedOnce, hi.drainedAll, hi.linked, fun link hlive => ?_,
    hi.account, fun level index link hlink => ⟨?_, fun d hd heq => ?_⟩, hi.refusedLate,
    fun deadline hd => Late.over (hi.refusedLate deadline hd) hi, hi.timeoutsOver⟩
  · obtain ⟨t, hg⟩ := Guar.of_step hrole hc hnow hrun hstep
    exact ⟨t, hg.chains⟩
  · rcases hplace : c.shared.ghost.place link with _ | u | ⟨level, index⟩
    · exact absurd hplace (hi.liveOut link hlive)
    · have hmem := (hi.handed u link).mpr hplace
      refine .inr ⟨⟨u, List.count_eq_one_of_mem (hi.heldNodup u) hmem, fun v hv => ?_⟩,
        hi.not_mem_chain hmem⟩
      exact hi.holder_unique (List.one_le_count_iff.mp hv.ge) hmem
    · have hmem := (hi.slotted level index link).mpr hplace
      refine .inl ⟨⟨(level, index), List.count_eq_one_of_mem (hi.chainNodup level index) hmem,
        fun slot hslot => ?_⟩, fun u hu => hi.not_mem_chain hu level index hmem⟩
      have hslot := (hi.slotted slot.1 slot.2 link).mp (List.one_le_count_iff.mp hslot.ge)
      obtain ⟨h1, h2⟩ := Place.slot.inj (hslot.symm.trans hplace)
      exact Prod.ext h1 h2
  · exact hi.due link level index ((hi.slotted level index link).mp hlink)
  · obtain ⟨rfl, rfl, hbase⟩ := heq
    exact absurd hbase (hi.drainedBelow d hd).ne

/-- The armed timer's link is accepted, and its window is not over. -/
theorem custody_pair : ∃ c, Run ⟨pairStart, threads pair⟩ c ∧
    c.shared.ghost.live () = true ∧ c.shared.ghost.accepted () = c.shared.ghost.recycled () + 1 ∧
    c.shared.mem.high 0 0 ≤ c.shared.mem.deadlineTick () := by
  obtain ⟨c, hrun, -, -, -, -, -, hchain, hlive⟩ := exists_asleep_pair
  obtain ⟨-, -, -, -, -, haccount, hdue, -⟩ :=
    custody distinct_pair (Nat.zero_le _) (by decide) hrun
  refine ⟨c, hrun, hlive, ?_, (hdue 0 0 () (by simp [hchain])).1⟩
  rw [haccount (), if_pos hlive]

end Runs

end Timers

end Asyncio

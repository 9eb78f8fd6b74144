import Asyncio.Timers.Outlines

/-!
# The sweep

A visit of a window that starts at the tick being swept finds the slot at that window, or past it.
In the first case the cursor is at the tick, and one visitor takes the chain and reopens the slot for
the next rotation. Whoever confirms the tick has seen all its windows past.

## Main results

* `Timers.outline_timerWheelDetach` — the window is past, and its chain is in the winner's hands
* `Timers.outline_timerWheelProcessDetached` — links are delivered when due, or go back to the grid
* `Timers.outline_processTimeoutQueue`, `Timers.outline_addToTimeoutQueue`
-/

namespace Asyncio

namespace Timers

set_option linter.unusedSectionVars false

open Concurrent Wheel Function

variable {ℓ τ : Type} {n : ℕ} {role : τ → Option (Fin n)} {c₀ : ℕ} {t : τ}

/-! ### What a visitor has -/

/-- The tick is at or below the cursor and below the clock. -/
def Sweeping (tick : ℕ) (s : State ℓ τ n) : Prop :=
  tick ≤ s.mem.timerCloseCursor ∧ tick < getMonotonicTicks s.mem.now

theorem Sweeping.mono {u : τ} {s s' : State ℓ τ n} {tick : ℕ} (h : Sweeping tick s)
    (hg : Guar role u s s') : Sweeping tick s' :=
  ⟨h.1.trans hg.cursor, h.2.trans_le (Nat.div_le_div_right hg.now)⟩

theorem stable_sweeping (tick : ℕ) :
    Stable (terms role c₀ t) (Sweeping tick : State ℓ τ n → Prop) :=
  stable_of_guar fun _ _ _ _ _ _ hg h => h.mono hg

/-- Thread `t` is visiting a window at `tick`: the chain it has taken, its bracket, and the slot
whose bit it may have cleared. -/
structure Detaching (role : τ → Option (Fin n)) (t : τ) (tick : ℕ) (p : Option ℓ) (links : List ℓ)
    (opened : Option ℕ) (clearing : Option (ℕ × ℕ)) (s : State ℓ τ n) : Prop where
  held : s.ghost.held t = links
  chain : Chain some s.mem.next p links none
  inside : s.ghost.inside t = true
  quiet : Quiet t s
  bracket : s.ghost.bracket t = opened.isSome
  clearing : s.ghost.clearing t = clearing
  sequence : ∀ j sequence, role t = some j → opened = some sequence →
    s.mem.preclearSequence j = sequence + 1
  sweeping : Sweeping tick s

variable {links : List ℓ}

theorem stable_detaching (hrole : Distinct role) {tick : ℕ} {p : Option ℓ}
    {opened : Option ℕ} {clearing : Option (ℕ × ℕ)} :
    Stable (terms role c₀ t)
      (Detaching role t tick p links opened clearing : State ℓ τ n → Prop) := by
  refine stable_of_guar fun s s' u hu hi hi' hg h => ?_
  have hb := hg.brackets t hu.symm
  exact
    { held := (hg.held t hu.symm).trans h.held
      chain := h.chain.congr fun e he => (hg.cells t hu.symm e (h.held ▸ he)).1
      inside := hb.2.2.trans h.inside
      quiet := stable_quiet s s' hi hi' ⟨u, hu, hg⟩ h.quiet
      bracket := hb.1.trans h.bracket
      clearing := hb.2.1.trans h.clearing
      sequence := fun j sequence hj ho =>
        (hg.loop j fun huj => hu (hrole u t j huj hj)).2.1.trans (h.sequence j sequence hj ho)
      sweeping := h.sweeping.mono hg }

/-! ### Detaching -/

section Detach

variable {tick level : ℕ} {observed : Option ℓ × ℕ}

/-- The slot that a visitor of the grid has cleared, after what it saw last. -/
def toRepair (tick level : ℕ) (seen : Option ℓ × ℕ) : Option (ℕ × ℕ) :=
  if seen.1 = none ∧ seen.2 > tick then none else some (level, slotIndex level tick)

variable {s : State ℓ τ n}

/-- A slot that shows no link has none. -/
theorem Inv.chain_eq_nil (hi : Inv role c₀ s) {level index : ℕ}
    (h : s.mem.low level index = none) : s.ghost.chain level index = [] := by
  have hchain := hi.linked level index
  rw [h] at hchain
  exact hchain.eq_nil (by simp)

/-- The slot's window is at the tick only if the cursor is. -/
theorem Inv.at_cursor (hi : Inv role c₀ s) (hl : level < levels) {index : ℕ}
    (hindex : index < slots) (hs : Sweeping tick s) (hle : s.mem.high level index ≤ tick) :
    s.mem.high level index = s.mem.timerCloseCursor ∧ s.mem.timerCloseCursor = tick := by
  have hnext : s.mem.timerCloseCursor ≤ nextStart level index s.mem.timerCloseCursor :=
    Window.le_next _ _ _
  have hlower := hi.lower level hl index hindex
  have := hs.1
  omega

/-- What a visitor has when its loop is left. -/
def Visited (role : τ → Option (Fin n)) (t : τ) (tick level : ℕ) (x : Option ℓ × Option ℕ)
    (s : State ℓ τ n) : Prop :=
  (∃ links, Detaching role t tick x.1 links x.2 none s) ∧ Past level (slotIndex level tick) tick s

theorem stable_visited (hrole : Distinct role) (x : Option ℓ × Option ℕ) :
    Stable (terms role c₀ t) (Visited role t tick level x : State ℓ τ n → Prop) :=
  (Stable.exists fun _ => stable_detaching hrole).and (stable_past _ _ _)

/-- A visitor in its loop, with what it saw last. -/
def Looks (role : τ → Option (Fin n)) (t : τ) (tick level : ℕ) (x : (Option ℓ × ℕ) × Option ℕ)
    (s : State ℓ τ n) : Prop :=
  Detaching role t tick none [] x.2 (x.2.bind fun _ => toRepair tick level x.1) s ∧
    Seen level (slotIndex level tick) tick x.1 s

theorem stable_looks (hrole : Distinct role) (x : (Option ℓ × ℕ) × Option ℕ) :
    Stable (terms role c₀ t) (Looks role t tick level x : State ℓ τ n → Prop) :=
  (stable_detaching hrole).and (stable_seen _ _ _ _)

/-- What the drain leaves, won or lost. -/
def Drained (role : τ → Option (Fin n)) (t : τ) (tick level : ℕ) (observed : Option ℓ × ℕ)
    (opened : Option ℕ) (x : Bool × Option ℓ × ℕ) : State ℓ τ n → Prop :=
  if x.1 then Visited role t tick level (observed.1, opened)
  else Looks role t tick level (x.2, opened)

theorem stable_drained (hrole : Distinct role) (opened : Option ℕ) (x : Bool × Option ℓ × ℕ) :
    Stable (terms role c₀ t)
      (Drained role t tick level observed opened x : State ℓ τ n → Prop) := by
  unfold Drained
  split
  · exact stable_visited hrole _
  · exact stable_looks hrole _

variable [DecidableEq ℓ] [DecidableEq τ]

theorem outline_casDrain (hrole : Distinct role) (hl : level < levels) (hle : observed.2 ≤ tick)
    (opened : Option ℕ) :
    Outline (terms role c₀ t)
      (Detaching role t tick none [] opened
        (opened.bind fun _ => some (level, slotIndex level tick)) : State ℓ τ n → Prop)
      (casDrain t level tick observed) (Drained role t tick level observed opened) := by
  have hindex := slotIndex_lt level tick
  unfold casDrain
  refine outline_casSlot (stable_detaching hrole) (stable_drained hrole opened)
    (fun s hi hs heq => ?_) fun s hi hs _ => ?_
  · subst heq
    obtain ⟨hcursor, htick⟩ := hi.at_cursor hl hindex hs.sweeping hle
    have hclearing : ∀ slot, s.ghost.clearing t = some slot →
        slot = (level, slotIndex level tick) := by
      intro slot hslot
      rw [hs.clearing] at hslot
      cases opened with
      | none => simp at hslot
      | some _ => simpa using hslot.symm
    have hdrain := hi.drain hl hindex hs.held hclearing hcursor (htick ▸ hs.sweeping.2)
    have hstart : tick + timerWheelPeriod level =
        s.mem.high level (slotIndex level tick) + timerWheelPeriod level := by omega
    simp only [hstart]
    refine ⟨hdrain, ⟨s.ghost.chain level (slotIndex level tick), ?_⟩, ?_⟩
    · exact
        { held := update_self ..
          chain := hi.linked level (slotIndex level tick)
          inside := hs.inside
          quiet := by
            have hq : s.ghost.duty t = none := hs.quiet
            simp [Quiet, Ghost.drain, hq]
          bracket := hs.bracket
          clearing := update_self ..
          sequence := hs.sequence
          sweeping := hs.sweeping }
    · have := period_pos level
      simp only [Past, setAt_self]
      omega
  · have hseen := hi.seen hl hindex hs.sweeping.1
    by_cases hempty : s.mem.low level (slotIndex level tick) = none ∧
        s.mem.high level (slotIndex level tick) > tick
    · simp only [if_pos hempty]
      refine ⟨hi.resolve fun l i hli => .inr ?_, ?_, hseen⟩
      · rw [hs.clearing] at hli
        cases opened with
        | none => simp at hli
        | some _ =>
          obtain ⟨rfl, rfl⟩ := Prod.mk.inj (Option.some.inj hli)
          exact hi.chain_eq_nil hempty.1
      · refine { hs with clearing := (update_self ..).trans ?_ }
        simp [toRepair, hempty]
    · simp only [if_neg hempty]
      refine ⟨⟨hi, Guar.refl s⟩, { hs with clearing := hs.clearing.trans ?_ }, hseen⟩
      simp [toRepair, hempty]

theorem outline_openBracket (hrole : Distinct role) (index : ℕ) :
    Outline (terms role c₀ t)
      (Detaching role t tick none [] none none : State ℓ τ n → Prop)
      (openBracket t (role t) level index)
      fun sequence => Detaching role t tick none [] (some sequence) (some (level, index)) := by
  rcases hj : role t with _ | j
  · refine .bind (M := fun _ => Detaching role t tick none [] (some 0) (some (level, index)))
      (outline_store (stable_detaching hrole) (fun _ => stable_detaching hrole)
        fun s hi hs => ?_) fun _ => outline_ret (stable_detaching hrole) fun s _ hs => hs
    refine ⟨hi.openBracket_none hj hs.bracket hs.clearing level index, ?_⟩
    exact
      { hs with
        bracket := update_self ..
        clearing := update_self ..
        sequence := fun j' sequence hj' => by simp [hj] at hj' }
  · have hmid : ∀ sequence, Stable (terms role c₀ t) fun s : State ℓ τ n =>
        Detaching role t tick none [] none none s ∧ s.mem.preclearSequence j = sequence := by
      refine fun sequence => (stable_detaching hrole).and ?_
      exact stable_of_guar fun s s' u hu _ _ hg hs =>
        (hg.loop j fun huj => hu (hrole u t j huj hj)).2.1.trans hs
    refine .bind (outline_load (stable_detaching hrole) hmid fun s _ hs => ⟨hs, rfl⟩)
      fun sequence => .bind (M := fun _ =>
        Detaching role t tick none [] (some sequence) (some (level, index)))
      (outline_store (hmid sequence) (fun _ => stable_detaching hrole) fun s hi hs => ?_)
      fun _ => outline_ret (stable_detaching hrole) fun s _ hs => hs
    obtain ⟨hs, rfl⟩ := hs
    refine ⟨hi.openBracket_some hrole hj hs.bracket hs.clearing level index, ?_⟩
    refine
      { hs with
        bracket := update_self ..
        clearing := update_self ..
        sequence := fun j' sequence hj' ho => ?_ }
    obtain rfl := Option.some.inj (hj.symm.trans hj')
    rw [← Option.some.inj ho]
    exact update_self ..

theorem outline_closeBracket (hrole : Distinct role) (sequence : ℕ) {p : Option ℓ}
    :
    Outline (terms role c₀ t)
      (Detaching role t tick p links (some sequence) none : State ℓ τ n → Prop)
      (closeBracket t (role t) sequence)
      fun _ => Detaching role t tick p links none none := by
  rcases hj : role t with _ | j
  · refine outline_store (stable_detaching hrole) (fun _ => stable_detaching hrole) fun s hi hs => ?_
    refine ⟨hi.closeBracket_none hj hs.bracket hs.clearing, ?_⟩
    exact
      { hs with
        bracket := update_self ..
        sequence := fun j' sequence _ ho => by simp at ho }
  · refine outline_store (stable_detaching hrole) (fun _ => stable_detaching hrole) fun s hi hs => ?_
    have hsequence : sequence + 2 = s.mem.preclearSequence j + 1 := by
      rw [hs.sequence j sequence hj rfl]
    rw [hsequence]
    refine ⟨hi.closeBracket_some hrole hj hs.bracket hs.clearing, ?_⟩
    exact
      { hs with
        bracket := update_self ..
        sequence := fun j' sequence _ ho => by simp at ho }

/-- The window is past: what may have been cleared is set again. -/
theorem outline_reopened (hrole : Distinct role) (opened : Option ℕ) (hpast : observed.2 > tick) :
    Outline (terms role c₀ t)
      (Looks role t tick level (observed, opened) : State ℓ τ n → Prop)
      (if observed.1.isSome then
        timerWheelMarkOccupied level (slotIndex level tick) fun _ => Ghost.resolve t
        else return ())
      fun _ => Visited role t tick level (none, opened) := by
  have hstart : ∀ s : State ℓ τ n, Looks role t tick level (observed, opened) s →
      Past level (slotIndex level tick) tick s := fun s hs => lt_of_lt_of_le hpast hs.2.2.2
  split
  · next hsome =>
    unfold timerWheelMarkOccupied
    refine outline_store (stable_looks hrole _) (fun _ => stable_visited hrole _) fun s hi hs => ?_
    refine ⟨hi.repair fun slot hslot => ?_, ⟨[], ?_⟩, hstart s hs⟩
    · rw [hs.1.clearing] at hslot
      obtain ⟨_, -, hslot⟩ := Option.bind_eq_some_iff.mp hslot
      unfold toRepair at hslot
      split at hslot
      · simp at hslot
      · exact (Option.some.inj hslot).symm
    · exact { hs.1 with clearing := update_self .. }
  · next hnone =>
    refine outline_ret (stable_looks hrole _) fun s _ hs => ⟨⟨[], ?_⟩, hstart s hs⟩
    refine { hs.1 with clearing := hs.1.clearing.trans ?_ }
    have : observed.1 = none := by simpa using hnone
    cases opened <;> simp [toRepair, this, hpast]

/-- The drain, then what the loop makes of it. -/
theorem outline_drainStep (hrole : Distinct role) (hl : level < levels) (hle : observed.2 ≤ tick)
    (opened : Option ℕ) :
    Outline (terms role c₀ t)
      (Detaching role t tick none [] opened
        (opened.bind fun _ => some (level, slotIndex level tick)) : State ℓ τ n → Prop)
      (do
        let (won, seen) ← casDrain t level tick observed
        if won then return .inr (observed.1, opened) else return .inl (seen, opened))
      (Sum.elim (Looks role t tick level) (Visited role t tick level)) := by
  refine .bind (outline_casDrain hrole hl hle opened) ?_
  rintro ⟨won, seen⟩
  cases won with
  | true => exact outline_ret (stable_drained hrole opened _) fun s _ hs => hs
  | false => exact outline_ret (stable_drained hrole opened _) fun s _ hs => hs

theorem outline_clear (hrole : Distinct role) (sequence : ℕ) {index : ℕ} :
    Outline (terms role c₀ t)
      (Detaching role t tick none [] (some sequence) (some (level, index)) : State ℓ τ n → Prop)
      (timerWheelClearOccupied level index)
      fun _ => Detaching role t tick none [] (some sequence) (some (level, index)) := by
  unfold timerWheelClearOccupied
  refine outline_store (stable_detaching hrole) (fun _ => stable_detaching hrole) fun s hi hs => ?_
  exact ⟨hi.clear hs.clearing, { hs with }⟩

theorem outline_detachLoop (hrole : Distinct role) (hl : level < levels) (observed : Option ℓ × ℕ) :
    Outline (terms role c₀ t)
      (Looks role t tick level (observed, none) : State ℓ τ n → Prop)
      (detachLoop t (role t) level tick (observed, none)) (Visited role t tick level) := by
  refine .loop (Looks role t tick level) (observed, none) ?_ (stable_visited hrole)
  rintro ⟨observed, opened⟩
  by_cases hpast : observed.2 > tick
  · simp only [if_pos hpast]
    exact .bind (outline_reopened hrole opened hpast) fun _ =>
      outline_ret (stable_visited hrole _) fun s _ hs => hs
  simp only [if_neg hpast]
  have hrepair : toRepair tick level observed = some (level, slotIndex level tick) :=
    if_neg fun h => hpast h.2
  have hle : observed.2 ≤ tick := Nat.le_of_not_lt hpast
  have hlooks : ∀ s : State ℓ τ n, Looks role t tick level (observed, opened) s →
      Detaching role t tick none [] opened
        (opened.bind fun _ => some (level, slotIndex level tick)) s := by
    intro s hs
    rw [← hrepair]
    exact hs.1
  cases opened with
  | none =>
    refine .bind (M := fun _ => Detaching role t tick none [] none none)
      (outline_load (stable_looks hrole _) (fun _ => stable_detaching hrole)
        fun s _ hs => hlooks s hs) fun occupied => ?_
    cases occupied with
    | true =>
      exact .bind (outline_openBracket hrole _) fun sequence =>
        .bind (outline_clear hrole sequence) fun _ =>
          outline_drainStep hrole hl hle (some sequence)
    | false => exact outline_drainStep hrole hl hle none
  | some sequence =>
    refine .bind (M := fun occupied s => occupied = true ∧ Detaching role t tick none []
        (some sequence) (some (level, slotIndex level tick)) s)
      (outline_ret (stable_looks hrole _) fun s _ hs => ⟨rfl, hlooks s hs⟩) fun occupied =>
      .assume (stable_detaching hrole) ?_
    rintro rfl
    refine .bind (M := fun x s => x = sequence ∧ Detaching role t tick none []
        (some sequence) (some (level, slotIndex level tick)) s)
      (outline_ret (stable_detaching hrole) fun s _ hs => ⟨rfl, hs⟩) fun x =>
      .assume (stable_detaching hrole) ?_
    rintro rfl
    exact .bind (outline_clear hrole x) fun _ => outline_drainStep hrole hl hle (some x)

/-- Thread `t` has the links of a chain that it took at `tick`. -/
def Holds (t : τ) (tick : ℕ) (p : Option ℓ) (s : State ℓ τ n) : Prop :=
  (∃ links, Hand t [] p links s) ∧ Quiet t s ∧ Sweeping tick s

theorem stable_holds (p : Option ℓ) :
    Stable (terms role c₀ t) (Holds t tick p : State ℓ τ n → Prop) :=
  (Stable.exists fun _ => stable_hand _ _ _).and (stable_quiet.and (stable_sweeping _))

theorem Detaching.holds {p : Option ℓ}
    (h : Detaching role t tick p links none none s) : Holds t tick p s :=
  ⟨⟨links, h.held, h.chain, h.inside, h.bracket, h.clearing⟩, h.quiet, h.sweeping⟩

theorem outline_timerWheelDetach (hrole : Distinct role) (hl : level < levels) :
    Outline (terms role c₀ t)
      (Detaching role t tick none [] none none : State ℓ τ n → Prop)
      (timerWheelDetach t (role t) level tick)
      fun p s => Holds t tick p s ∧ Past level (slotIndex level tick) tick s := by
  have hpost : ∀ p, Stable (terms role c₀ t) fun s : State ℓ τ n =>
      Holds t tick p s ∧ Past level (slotIndex level tick) tick s :=
    fun p => (stable_holds p).and (stable_past _ _ _)
  refine .bind (M := fun observed => Looks role t tick level (observed, none))
    (outline_load (stable_detaching hrole) (fun _ => stable_looks hrole _) fun s hi hs =>
      ⟨hs, hi.seen hl (slotIndex_lt level tick) hs.sweeping.1⟩) fun observed =>
    .bind (outline_detachLoop hrole hl observed) ?_
  rintro ⟨p, opened⟩
  cases opened with
  | none =>
    exact outline_ret (stable_visited hrole _) fun s _ hs => ⟨hs.1.choose_spec.holds, hs.2⟩
  | some sequence =>
    have hclose : Outline (terms role c₀ t)
        (Visited role t tick level (p, some sequence) : State ℓ τ n → Prop)
        (closeBracket t (role t) sequence)
        fun _ s => Holds t tick p s ∧ Past level (slotIndex level tick) tick s := by
      refine .obtain (R := fun links s => Detaching role t tick p links (some sequence) none s ∧
          Past level (slotIndex level tick) tick s)
        (stable_visited hrole _) (fun s _ ⟨⟨links, hs⟩, hpast⟩ => ⟨links, hs, hpast⟩) fun links => ?_
      exact ((outline_closeBracket hrole sequence).frame (stable_past _ _ _)
        fun s s' _ _ hg hs => lt_of_lt_of_le hs (hg.high _ _)).post fun _ s _ hs =>
          ⟨hs.1.holds, hs.2⟩
    exact .bind hclose fun _ => outline_ret (hpost p) fun s _ hs => hs

end Detach

/-! ### What becomes of the links -/

section Process

variable [DecidableEq ℓ] [DecidableEq τ] {tick : ℕ} {link : ℓ} {p : Option ℓ} {rest : List ℓ}

/-- The deadline's tick is over. -/
def Over (deadline : ℕ) (s : State ℓ τ n) : Prop := deadline < getMonotonicTicks s.mem.now

theorem stable_over (deadline : ℕ) :
    Stable (terms role c₀ t) (Over deadline : State ℓ τ n → Prop) :=
  stable_of_guar fun _ _ _ _ _ _ hg h => lt_of_lt_of_le h (Nat.div_le_div_right hg.now)

/-- The link is given back, the rest stays. -/
theorem outline_objectPoolPut :
    Outline (terms role c₀ t)
      (fun s : State ℓ τ n => Hand t [link] p rest s ∧ Quiet t s)
      (objectPoolPut t link) fun _ s => Hand t [] p rest s ∧ Quiet t s := by
  unfold objectPoolPut note
  refine outline_store ((stable_hand _ _ _).and stable_quiet)
    (fun _ => (stable_hand _ _ _).and stable_quiet) fun s hi hs => ?_
  have hmem : link ∈ s.ghost.held t := by simp [hs.1.held]
  refine ⟨hi.recycle hmem, { hs.1 with held := ?_ }, hs.2⟩
  simp [Ghost.recycle, hs.1.held]

theorem outline_cancelTimeout (deadline : ℕ) {P : State ℓ τ n → Prop} (hP : Stable (terms role c₀ t) P)
    (hkept : ∀ s, P s → P ⟨s.mem, s.ghost.timeOut deadline s.mem.now⟩) :
    Outline (terms role c₀ t) (fun s => P s ∧ Over deadline s) (cancelTimeout deadline)
      fun _ => P := by
  unfold cancelTimeout
  exact outline_store (hP.and (stable_over _)) (fun _ => hP) fun s hi hs =>
    ⟨hi.timeOut hs.2, hkept s hs.1⟩

/-- Thread `t` has a link with this deadline, and then the links of the chain that starts at `q`. -/
def HoldsLink (t : τ) (tick : ℕ) (link : ℓ) (q : Option ℓ) (deadline : ℕ) (s : State ℓ τ n) :
    Prop :=
  (∃ rest, Inserting t link q rest deadline tick s) ∧ Sweeping tick s

theorem stable_holdsLink (q : Option ℓ) (deadline : ℕ) :
    Stable (terms role c₀ t) (HoldsLink t tick link q deadline : State ℓ τ n → Prop) :=
  (Stable.exists fun _ => stable_inserting _ _ _ _ _).and (stable_sweeping _)

/-- The link of a chain goes, what is left is the next one's chain. -/
theorem outline_putLink (q : Option ℓ) (deadline : ℕ) :
    Outline (terms role c₀ t) (HoldsLink t tick link q deadline : State ℓ τ n → Prop)
      (objectPoolPut t link) fun _ => Holds t tick q := by
  refine .obtain (R := fun rest s => (Hand t [link] q rest s ∧ Quiet t s) ∧ Sweeping tick s)
    (stable_holdsLink _ _)
    (fun s _ ⟨⟨rest, hs⟩, hsweep⟩ => ⟨rest, ⟨hs.hand, hs.quiet⟩, hsweep⟩) fun rest => ?_
  exact (outline_objectPoolPut.frame (stable_sweeping _) fun s s' _ _ hg hs => hs.mono hg).post
    fun _ s _ ⟨hs, hsweep⟩ => ⟨⟨rest, hs.1⟩, hs.2, hsweep⟩

/-- The link goes back to the grid, or is due. -/
theorem outline_reinsert (hc : c₀ ≤ tick) (q : Option ℓ) (deadline : ℕ) :
    Outline (terms role c₀ t) (HoldsLink t tick link q deadline : State ℓ τ n → Prop)
      (if deadline > tick then timerWheelInsert t link tick else return false)
      fun published s => if published then Holds t tick q s
        else HoldsLink t tick link q deadline s ∧ Over deadline s := by
  split
  · refine .obtain (R := fun rest s => Inserting t link q rest deadline tick s ∧ Sweeping tick s)
      (stable_holdsLink _ _) (fun s _ ⟨⟨rest, hs⟩, hsweep⟩ => ⟨rest, hs, hsweep⟩) fun rest => ?_
    refine ((outline_timerWheelInsert hc).frame (stable_sweeping _)
      fun s s' _ _ hg hs => hs.mono hg).post fun published s hi ⟨hs, hsweep⟩ => ?_
    cases published with
    | true => exact ⟨⟨rest, hs.1⟩, hs.2, hsweep⟩
    | false => exact ⟨⟨⟨rest, { hs.1 with reached := hsweep.1 }⟩, hsweep⟩, hs.2.over hi⟩
  · next hle =>
    refine outline_ret (stable_holdsLink _ _) fun s _ hs => ⟨hs, ?_⟩
    exact lt_of_le_of_lt (Nat.le_of_not_lt hle) hs.2.2

/-- The links of a drained chain are recycled or go back to the grid, and none times out early. -/
theorem outline_timerWheelProcessDetached (hc : c₀ ≤ tick) (p : Option ℓ) :
    Outline (terms role c₀ t) (Holds t tick p : State ℓ τ n → Prop)
      (timerWheelProcessDetached t tick p) fun _ => Holds t tick none := by
  refine .loop (Holds t tick) p (fun p => ?_) fun _ => stable_holds none
  rcases p with _ | link
  · exact outline_ret (stable_holds _) fun s _ hs => hs
  have hnext : ∀ q, Stable (terms role c₀ t) fun s : State ℓ τ n =>
      (∃ rest, Hand t [link] q rest s) ∧ Quiet t s ∧ Sweeping tick s :=
    fun q => (Stable.exists fun _ => stable_hand _ _ _).and (stable_quiet.and (stable_sweeping _))
  refine .bind (M := fun q s => (∃ rest, Hand t [link] q rest s) ∧ Quiet t s ∧ Sweeping tick s)
    (outline_load (stable_holds _) hnext ?_) fun q =>
    .bind (M := fun deadline => HoldsLink t tick link q deadline)
      (outline_load (hnext q) (fun _ => stable_holdsLink _ _) ?_) fun deadline =>
    .bind (M := fun _ => HoldsLink t tick link q deadline)
      (.pick (stable_holdsLink _ _) (fun _ => stable_holdsLink _ _) ?_) fun stale => ?_
  · rintro s - ⟨⟨links, hs⟩, hquiet, hsweep⟩
    refine ⟨?_, hquiet, hsweep⟩
    rcases links with _ | ⟨first, rest⟩
    · simpa using hs.chain
    · obtain ⟨hfirst, hrest⟩ := hs.chain
      obtain rfl := Option.some.inj hfirst
      exact ⟨rest, { hs with chain := hrest }⟩
  · rintro s - ⟨⟨rest, hs⟩, hquiet, hsweep⟩
    exact ⟨⟨rest, hs, hquiet, rfl, hsweep.1⟩, hsweep⟩
  · rintro s _ s' rfl hi hs
    exact ⟨hi, Guar.refl s', hs⟩
  cases stale with
  | true =>
    exact .bind (outline_putLink q deadline) fun _ => outline_ret (stable_holds _) fun s _ hs => hs
  | false =>
    refine .bind (outline_reinsert hc q deadline) fun published => ?_
    cases published with
    | true => exact outline_ret (stable_holds _) fun s _ hs => hs
    | false =>
      refine .bind (outline_cancelTimeout deadline (stable_holdsLink q deadline)
        fun s ⟨⟨rest, hs⟩, hsweep⟩ => ⟨⟨rest, { hs with hand := { hs.hand with } }⟩, hsweep⟩)
        fun _ => .bind (outline_putLink q deadline) fun _ =>
          outline_ret (stable_holds _) fun s _ hs => hs

end Process

/-! ### The calls -/

section Calls

variable {tick : ℕ} {hand : List ℓ} {inside : Bool}

/-- Thread `t` is neither publishing nor visiting, and has the links of `hand`. -/
structure Idle (t : τ) (hand : List ℓ) (inside : Bool) (s : State ℓ τ n) : Prop where
  held : s.ghost.held t = hand
  inside : s.ghost.inside t = inside
  quiet : Quiet t s
  bracket : s.ghost.bracket t = false
  clearing : s.ghost.clearing t = none

theorem stable_idle : Stable (terms role c₀ t) (Idle t hand inside : State ℓ τ n → Prop) := by
  refine stable_of_guar fun s s' u hu hi hi' hg h => ?_
  have hb := hg.brackets t hu.symm
  exact
    { held := (hg.held t hu.symm).trans h.held
      inside := hb.2.2.trans h.inside
      quiet := stable_quiet s s' hi hi' ⟨u, hu, hg⟩ h.quiet
      bracket := hb.1.trans h.bracket
      clearing := hb.2.1.trans h.clearing }

theorem Idle.detaching {s : State ℓ τ n} (h : Idle t [] true s) (hs : Sweeping tick s) :
    Detaching role t tick none [] none none s :=
  { h with
    chain := rfl
    sequence := fun _ _ _ ho => by simp at ho
    sweeping := hs }

theorem Detaching.idle {s : State ℓ τ n} (h : Detaching role t tick none [] none none s) :
    Idle t [] true s :=
  { h with }

theorem Holds.detaching {s : State ℓ τ n} (h : Holds t tick none s) :
    Detaching role t tick none [] none none s := by
  obtain ⟨⟨links, hs⟩, hquiet, hsweep⟩ := h
  obtain rfl := hs.chain.eq_nil (by simp)
  exact Idle.detaching { hs with quiet := hquiet } hsweep

variable [DecidableEq ℓ] [DecidableEq τ]

theorem outline_timerWheelVisit (hrole : Distinct role) {level : ℕ} (hl : level < levels)
    (hc : c₀ ≤ tick) :
    Outline (terms role c₀ t)
      (Detaching role t tick none [] none none : State ℓ τ n → Prop)
      (timerWheelVisit t (role t) level tick)
      fun _ s => Detaching role t tick none [] none none s ∧
        Past level (slotIndex level tick) tick s :=
  .bind (outline_timerWheelDetach hrole hl) fun p =>
    ((outline_timerWheelProcessDetached hc p).frame (stable_past _ _ _)
      fun _ _ _ _ hg hs => lt_of_lt_of_le hs (hg.high _ _)).post
      fun _ _ _ hs => ⟨hs.1.detaching, hs.2⟩

/-- After the visits, all windows that they visited are over. -/
theorem outline_visitAll (hrole : Distinct role) (hc : c₀ ≤ tick) (todo : List ℕ)
    (htodo : ∀ level ∈ todo, level < levels) :
    Outline (terms role c₀ t)
      (Detaching role t tick none [] none none : State ℓ τ n → Prop)
      (visitAll t (role t) tick todo)
      fun _ s => Detaching role t tick none [] none none s ∧
        ∀ level ∈ todo, Past level (slotIndex level tick) tick s := by
  induction todo with
  | nil => exact outline_ret (stable_detaching hrole) fun s _ hs => ⟨hs, by simp⟩
  | cons level todo ih =>
    refine .bind (outline_timerWheelVisit hrole (htodo level (by simp)) hc) fun _ => ?_
    refine ((ih fun l hl => htodo l (by simp [hl])).frame (stable_past _ _ _)
      fun _ _ _ _ hg hs => lt_of_lt_of_le hs (hg.high _ _)).post fun _ s _ hs => ⟨hs.1.1, ?_⟩
    intro l hl
    rcases List.mem_cons.mp hl with rfl | hl
    · exact hs.2
    · exact hs.1.2 l hl

/-- The tick is confirmed when every window that starts at it is over. -/
theorem outline_timerWheelSweepTick (hrole : Distinct role) (hc : c₀ ≤ tick) :
    Outline (terms role c₀ t)
      (Detaching role t tick none [] none none : State ℓ τ n → Prop)
      (timerWheelSweepTick t (role t) tick) fun _ => Idle t [] true := by
  have hvisited : Stable (terms role c₀ t) fun s : State ℓ τ n =>
      Detaching role t tick none [] none none s ∧
        ∀ level ∈ visits tick, Past level (slotIndex level tick) tick s :=
    (stable_detaching hrole).and fun s s' hi hi' hrely hs level hl =>
      stable_past _ _ _ s s' hi hi' hrely (hs level hl)
  refine .bind (outline_visitAll hrole hc _ fun level hl => (mem_visits.mp hl).1) fun _ => ?_
  refine outline_store hvisited (fun _ => stable_idle) fun s hi hs => ?_
  by_cases hcursor : s.mem.timerCloseCursor = tick
  · subst hcursor
    simp only [if_true]
    refine ⟨hi.confirm hs.1.sweeping.2 fun level hl index hindex hmod => ?_, { hs.1 with }⟩
    obtain ⟨hstart, rfl⟩ := (mod_period_eq_iff hindex).mp hmod
    exact hs.2 level (mem_visits.mpr ⟨hl, hstart⟩)
  · simp only [if_neg hcursor]
    exact ⟨⟨hi, Guar.refl s⟩, hs.1.idle⟩

theorem outline_enter (inside' : Bool) :
    Outline (terms role c₀ t) (Idle t hand inside : State ℓ τ n → Prop)
      (note (Ghost.enter t inside')) fun _ => Idle t hand inside' := by
  unfold note
  refine outline_store stable_idle (fun _ => stable_idle) fun s hi hs => ⟨hi.enter hs.quiet, ?_⟩
  exact { hs with inside := update_self .. }

/-- The clock has reached the tick that a sweep is for. -/
def Clocked (currentTick : ℕ) (s : State ℓ τ n) : Prop := currentTick ≤ getMonotonicTicks s.mem.now

omit [DecidableEq ℓ] [DecidableEq τ] in
theorem Clocked.mono {u : τ} {s s' : State ℓ τ n} {currentTick : ℕ} (h : Clocked currentTick s)
    (hg : Guar role u s s') : Clocked currentTick s' :=
  Nat.le_trans h (Nat.div_le_div_right hg.now)

omit [DecidableEq ℓ] [DecidableEq τ] in
theorem stable_clocked (currentTick : ℕ) :
    Stable (terms role c₀ t) (Clocked currentTick : State ℓ τ n → Prop) :=
  stable_of_guar fun _ _ _ _ _ _ hg h => h.mono hg

theorem outline_processTimeoutQueue (hrole : Distinct role) (currentTick : ℕ) :
    Outline (terms role c₀ t)
      (fun s : State ℓ τ n => Idle t [] false s ∧ Clocked currentTick s)
      (processTimeoutQueue t (role t) currentTick)
      fun _ s => Idle t [] false s ∧ Clocked currentTick s := by
  have hstable : Stable (terms role c₀ t) fun s : State ℓ τ n =>
      Idle t [] false s ∧ Clocked currentTick s := stable_idle.and (stable_clocked _)
  have hread : ∀ tick, Stable (terms role c₀ t) fun s : State ℓ τ n =>
      (Idle t [] false s ∧ Clocked currentTick s) ∧ c₀ ≤ tick ∧ Reached tick s :=
    fun tick => hstable.and ((Stable.pure _).and (stable_reached _))
  refine .bind (M := fun _ s => Idle t [] false s ∧ Clocked currentTick s)
    (outline_load hstable (fun _ => hstable) fun s _ hs => hs) fun cursor => ?_
  split
  · exact outline_ret hstable fun s _ hs => hs
  refine .loop (fun _ s => Idle t [] false s ∧ Clocked currentTick s) () (fun _ => ?_)
    fun _ => hstable
  refine .bind (M := fun tick s =>
      (Idle t [] false s ∧ Clocked currentTick s) ∧ c₀ ≤ tick ∧ Reached tick s)
    (outline_load hstable hread fun s hi hs => ⟨hs, hi.started, le_rfl⟩) fun tick => ?_
  by_cases htick : tick < currentTick
  · simp only [if_pos htick]
    refine .pre (.assume (φ := c₀ ≤ tick) (P := fun s => Idle t [] false s ∧
      Clocked currentTick s ∧ Reached tick s) (stable_idle.and
        ((stable_clocked _).and (stable_reached _))) fun hc => ?_) (hread tick)
      fun s _ hs => ⟨hs.2.1, hs.1.1, hs.1.2, hs.2.2⟩
    have hframe : Stable (terms role c₀ t) fun s : State ℓ τ n =>
        Clocked currentTick s ∧ Reached tick s := (stable_clocked _).and (stable_reached _)
    refine .bind ((outline_enter true).frame hframe fun _ _ _ _ hg hs =>
        ⟨hs.1.mono hg, Nat.le_trans hs.2 hg.cursor⟩) fun _ =>
      .bind (M := fun _ s => Idle t [] true s ∧ Clocked currentTick s) ?_ fun _ =>
      .bind ((outline_enter false).frame (stable_clocked _) fun _ _ _ _ hg hs => hs.mono hg)
        fun _ => outline_ret hstable fun s _ hs => hs
    refine ((outline_timerWheelSweepTick hrole hc).frame (stable_clocked currentTick)
      fun _ _ _ _ hg hs => hs.mono hg).pre (stable_idle.and hframe) fun s _ hs => ⟨?_, hs.2.1⟩
    exact hs.1.detaching ⟨hs.2.2, htick.trans_le hs.2.1⟩
  · simp only [if_neg htick]
    exact outline_ret (hread tick) fun s _ hs => hs.1

/-- Thread `t` has taken a link with this deadline from the pool. -/
def Got (t : τ) (link : ℓ) (deadline : ℕ) (inside : Bool) (s : State ℓ τ n) : Prop :=
  Idle t [link] inside s ∧ s.mem.deadlineTick link = deadline

variable {link : ℓ}

theorem stable_got {deadline : ℕ} :
    Stable (terms role c₀ t) (Got t link deadline inside : State ℓ τ n → Prop) :=
  stable_of_guar fun s s' u hu hi hi' hg hs =>
    ⟨stable_idle s s' hi hi' ⟨u, hu, hg⟩ hs.1,
      (hg.cells t hu.symm link (by simp [hs.1.held])).2.trans hs.2⟩

theorem Got.inserting {s : State ℓ τ n} {deadline h : ℕ} (hs : Got t link deadline true s)
    (hr : Reached h s) : Inserting t link none [] deadline h s :=
  { hand := { hs.1 with chain := rfl }
    quiet := hs.1.quiet
    deadline := hs.2
    reached := hr }

theorem Inserting.got {s : State ℓ τ n} {deadline h : ℕ}
    (hs : Inserting t link none [] deadline h s) : Got t link deadline true s :=
  ⟨{ hs.hand with quiet := hs.quiet }, hs.deadline⟩

theorem outline_enterWith {deadline : ℕ} (inside' : Bool) :
    Outline (terms role c₀ t) (Got t link deadline inside : State ℓ τ n → Prop)
      (note (Ghost.enter t inside')) fun _ => Got t link deadline inside' := by
  unfold note
  refine outline_store stable_got (fun _ => stable_got) fun s hi hs => ⟨hi.enter hs.1.quiet, ?_⟩
  exact ⟨{ hs.1 with inside := update_self .. }, hs.2⟩

/-- A refused link goes back to the pool and its operation times out. -/
theorem outline_refused (link : ℓ) (d : ℕ) :
    Outline (terms role c₀ t)
      (fun s : State ℓ τ n => Got t link d false s ∧ Over d s)
      (do
        let deadline ← load fun m => m.deadlineTick link
        objectPoolPut t link
        cancelTimeout deadline)
      fun _ => Idle t [] false := by
  have hgot : Stable (terms role c₀ t) fun s : State ℓ τ n => Got t link d false s ∧ Over d s :=
    stable_got.and (stable_over _)
  refine .bind (M := fun deadline s => deadline = d ∧ Got t link d false s ∧ Over d s)
    (outline_load hgot (fun _ => (Stable.pure _).and hgot) fun s _ hs => ⟨hs.1.2, hs⟩)
    fun deadline => .assume hgot ?_
  rintro rfl
  refine .bind (M := fun _ s => Idle t [] false s ∧ Over deadline s) ?_ fun _ =>
    outline_cancelTimeout deadline stable_idle fun s hs => { hs with }
  unfold objectPoolPut note
  refine outline_store hgot (fun _ => stable_idle.and (stable_over _)) fun s hi hs => ?_
  have hmem : link ∈ s.ghost.held t := by simp [hs.1.1.held]
  refine ⟨hi.recycle hmem, { hs.1.1 with held := ?_ }, hs.2⟩
  simp [Ghost.recycle, hs.1.1.held]

theorem outline_addToTimeoutQueue :
    Outline (terms role c₀ t) (Idle t [] false : State ℓ τ n → Prop)
      (addToTimeoutQueue t) fun _ => Idle t [] false := by
  refine .bind (M := fun x s => x.elim (Idle t [] false s) fun link => ∃ d, Got t link d false s)
    (.pick stable_idle ?_ ?_) ?_
  · rintro (_ | link)
    · exact stable_idle
    · exact Stable.exists fun _ => stable_got
  · rintro s (_ | link) s' hs' hi hs
    · subst hs'
      exact ⟨hi, Guar.refl s', hs⟩
    · obtain ⟨hpool, deadline, hlimit, rfl⟩ := hs'
      obtain ⟨hi', hg⟩ := hi.acquire hpool hlimit (t := t)
      refine ⟨hi', hg, deadline, { hs with held := ?_ }, update_self ..⟩
      simp [Ghost.acquire, hs.held]
  rintro (_ | link)
  · exact outline_ret stable_idle fun s _ hs => hs
  refine .obtain (Stable.exists fun _ => stable_got) (fun s _ hs => hs) fun d => ?_
  have hread : ∀ {inside} cursor, Stable (terms role c₀ t) fun s : State ℓ τ n =>
      Got t link d inside s ∧ Reached cursor s := fun _ => stable_got.and (stable_reached _)
  refine .bind (M := fun cursor s => c₀ ≤ cursor ∧ Got t link d false s ∧ Reached cursor s)
    (outline_load stable_got (fun _ => (Stable.pure _).and (hread _))
      fun s hi hs => ⟨hi.started, hs, le_rfl⟩) fun cursor => .assume (hread _) fun hc => ?_
  refine .bind ((outline_enterWith true).frame (stable_reached _) fun _ _ _ _ hg hs =>
      Nat.le_trans hs hg.cursor) fun _ =>
    .bind ((outline_timerWheelInsert hc).pre (hread _) fun s _ hs => hs.1.inserting hs.2)
      fun published => ?_
  cases published with
  | true =>
    refine .bind (.pre (R := Idle t [] true) (outline_enter false)
        ((stable_hand _ _ _).and stable_quiet) fun s _ hs => ?_)
      fun _ => outline_ret stable_idle fun s _ hs => hs
    exact { hs.1 with quiet := hs.2 }
  | false =>
    refine .bind (.pre (R := fun s => Got t link d true s ∧ Over d s)
      ((outline_enterWith false).frame (stable_over _) fun _ _ _ _ hg hs =>
        lt_of_lt_of_le hs (Nat.div_le_div_right hg.now))
      ((stable_inserting _ _ _ _ _).and (stable_late _)) fun s hi hs => ?_) fun _ =>
      outline_refused link d
    exact ⟨hs.1.got, hs.2.over hi⟩

theorem outline_armAny :
    Outline (terms role c₀ t) (Idle t [] false : State ℓ τ n → Prop)
      (armAny t) fun _ => Idle t [] false := by
  refine .loop (fun _ => Idle t [] false) () (fun _ => ?_) fun _ => stable_idle
  refine .bind (M := fun _ => Idle t [] false) (.pick stable_idle (fun _ => stable_idle) ?_)
    fun more => ?_
  · rintro s _ s' rfl hi hs
    exact ⟨hi, Guar.refl s', hs⟩
  · cases more
    · exact outline_ret stable_idle fun s _ hs => hs
    · exact .bind outline_addToTimeoutQueue fun _ => outline_ret stable_idle fun s _ hs => hs

end Calls

end Timers

end Asyncio

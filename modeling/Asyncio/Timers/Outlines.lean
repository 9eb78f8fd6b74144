import Asyncio.Timers.Changes

/-!
# Publications and visits

Outlines of the functions that move links. Arming and sweeping are outlined once for all threads:
what a thread may assume is that its own links, brackets and publications are left alone, that
window starts and the cursor only move forward, and that a refused window stays drained.

A stale position is as good as the current one. The window it routes to is either still open, or was
drained by a visit at its start, and then its start is a position that the cursor has reached.

## Main results

* `Timers.outline_timerWheelInsert` — a link is published, or refused because it is due
* `Timers.outline_timerWheelVisit` — the window that starts at the tick is over afterwards
* `Timers.outline_processTimeoutQueue`, `Timers.outline_addToTimeoutQueue`
-/

namespace Asyncio

namespace Timers

set_option linter.unusedSectionVars false

open Concurrent Wheel Function

variable {ℓ τ : Type} {n : ℕ} {role : τ → Option (Fin n)} {c₀ : ℕ} {t : τ}

/-- The terms on which thread `t` runs. -/
def terms (role : τ → Option (Fin n)) (c₀ : ℕ) (t : τ) : Terms (State ℓ τ n) :=
  poolTerms (Inv role c₀) (Guar role) t

/-! ### Instructions -/

variable {P : State ℓ τ n → Prop}

theorem stable_of_guar
    (h : ∀ s s' u, u ≠ t → Inv role c₀ s → Inv role c₀ s' → Guar role u s s' → P s → P s') :
    Stable (terms role c₀ t) P :=
  fun s s' hi hi' ⟨u, hu, hg⟩ => h s s' u hu hi hi' hg

theorem outline_instr {β : Type} {f : Mem ℓ n → β × Mem ℓ n}
    {note : β → Mem ℓ n → Ghost ℓ τ n → Ghost ℓ τ n}
    {Q : β → State ℓ τ n → Prop} (hP : Stable (terms role c₀ t) P)
    (hQ : ∀ x, Stable (terms role c₀ t) (Q x)) (h : ∀ s, Inv role c₀ s → P s →
      (Keeps role c₀ t s ⟨(f s.mem).2, note (f s.mem).1 s.mem s.ghost⟩) ∧
      Q (f s.mem).1 ⟨(f s.mem).2, note (f s.mem).1 s.mem s.ghost⟩) :
    Outline (terms role c₀ t) P (instr f note) Q := by
  refine .act hP hQ fun s x s' heq hi hp => ?_
  cases heq
  obtain ⟨⟨hi', hg⟩, hq⟩ := h s hi hp
  exact ⟨hi', hg, hq⟩

theorem outline_load {β : Type} {f : Mem ℓ n → β}
    {Q : β → State ℓ τ n → Prop} (hP : Stable (terms role c₀ t) P)
    (hQ : ∀ x, Stable (terms role c₀ t) (Q x)) (h : ∀ s, Inv role c₀ s → P s → Q (f s.mem) s) :
    Outline (terms role c₀ t) P (load f) Q :=
  outline_instr hP hQ fun s hi hp => ⟨⟨hi, Guar.refl s⟩, h s hi hp⟩

theorem outline_store {f : Mem ℓ n → Mem ℓ n} {note : Mem ℓ n → Ghost ℓ τ n → Ghost ℓ τ n}
    {Q : Unit → State ℓ τ n → Prop} (hP : Stable (terms role c₀ t) P)
    (hQ : ∀ x, Stable (terms role c₀ t) (Q x)) (h : ∀ s, Inv role c₀ s → P s →
      (Keeps role c₀ t s ⟨f s.mem, note s.mem s.ghost⟩) ∧
      Q () ⟨f s.mem, note s.mem s.ghost⟩) :
    Outline (terms role c₀ t) P (store f note) Q :=
  outline_instr hP hQ h

theorem outline_casSlot [DecidableEq ℓ] {level index : ℕ} {observed desired : Option ℓ × ℕ}
    {won : Ghost ℓ τ n → Ghost ℓ τ n} {lost : Option ℓ × ℕ → Ghost ℓ τ n → Ghost ℓ τ n}
    {Q : Bool × Option ℓ × ℕ → State ℓ τ n → Prop}
    (hP : Stable (terms role c₀ t) P) (hQ : ∀ x, Stable (terms role c₀ t) (Q x))
    (hwon : ∀ s, Inv role c₀ s → P s → (s.mem.low level index, s.mem.high level index) = observed →
      (Keeps role c₀ t s ⟨{ s.mem with
            low := setAt s.mem.low level index desired.1
            high := setAt s.mem.high level index desired.2 }, won s.ghost⟩) ∧
      Q (true, observed) ⟨{ s.mem with
            low := setAt s.mem.low level index desired.1
            high := setAt s.mem.high level index desired.2 }, won s.ghost⟩)
    (hlost : ∀ s, Inv role c₀ s → P s → (s.mem.low level index, s.mem.high level index) ≠ observed →
      (Keeps role c₀ t s ⟨s.mem, lost (s.mem.low level index, s.mem.high level index) s.ghost⟩) ∧
      Q (false, s.mem.low level index, s.mem.high level index)
        ⟨s.mem, lost (s.mem.low level index, s.mem.high level index) s.ghost⟩) :
    Outline (terms role c₀ t) P (casSlot level index observed desired won lost) Q := by
  refine outline_instr hP hQ fun s hi hp => ?_
  by_cases heq : (s.mem.low level index, s.mem.high level index) = observed
  · simp only [if_pos heq, if_true]
    exact hwon s hi hp heq
  · simp only [if_neg heq, Bool.false_eq_true, if_false]
    exact hlost s hi hp heq

theorem outline_ret {β : Type} {Q : β → State ℓ τ n → Prop} {x : β}
    (hP : Stable (terms role c₀ t) P) (h : ∀ s, Inv role c₀ s → P s → Q x s) :
    Outline (terms role c₀ t) P (pure x) Q :=
  .ret hP h

/-! ### What a thread has -/

/-- Thread `t`, inside the grid and with no bracket open, has `hand` and then the links of the
chain that starts at `p`. -/
structure Hand (t : τ) (hand : List ℓ) (p : Option ℓ) (rest : List ℓ) (s : State ℓ τ n) :
    Prop where
  held : s.ghost.held t = hand ++ rest
  chain : Chain some s.mem.next p rest none
  inside : s.ghost.inside t = true
  bracket : s.ghost.bracket t = false
  clearing : s.ghost.clearing t = none

theorem stable_hand (hand : List ℓ) (p : Option ℓ) (rest : List ℓ) :
    Stable (terms role c₀ t) (Hand t hand p rest : State ℓ τ n → Prop) := by
  refine stable_of_guar fun s s' u hu hi hi' hg h => ?_
  have hb := hg.brackets t hu.symm
  exact
    { held := (hg.held t hu.symm).trans h.held
      chain := h.chain.congr fun e he =>
        (hg.cells t hu.symm e (h.held ▸ List.mem_append_right _ he)).1
      inside := hb.2.2.trans h.inside
      bracket := hb.1.trans h.bracket
      clearing := hb.2.1.trans h.clearing }

/-- Thread `t` is not publishing. -/
def Quiet (t : τ) (s : State ℓ τ n) : Prop := s.ghost.duty t = none

theorem stable_quiet : Stable (terms role c₀ t) (Quiet t : State ℓ τ n → Prop) := by
  refine stable_of_guar fun s s' u hu hi hi' hg h => ?_
  rcases hd : s'.ghost.duty t with _ | link
  · exact hd
  · have := (hg.duty t hu.symm link hd).1
    simp [show s.ghost.duty t = none from h] at this

/-- What is known of the link that thread `t` is publishing, if its publication is not over. -/
def Publishes (t : τ) (R : State ℓ τ n → ℓ → Prop) (s : State ℓ τ n) : Prop :=
  ∀ link, s.ghost.duty t = some link → R s link

theorem stable_publishes {R : State ℓ τ n → ℓ → Prop}
    (hR : ∀ s s' link, s'.ghost.place link = s.ghost.place link →
      s'.ghost.stage link = s.ghost.stage link →
      s'.mem.deadlineTick link = s.mem.deadlineTick link →
      (∀ j, s'.ghost.late j link = true → s.ghost.late j link = true) →
      (Covered s link → Covered s' link) → R s link → R s' link) :
    Stable (terms role c₀ t) (Publishes t R) := by
  refine stable_of_guar fun s s' u hu hi hi' hg h link hd => ?_
  obtain ⟨hd, hplace, hstage, hdeadline, hlate, hcovered⟩ := hg.duty t hu.symm link hd
  exact hR s s' link hplace hstage hdeadline hlate hcovered (h link hd)

/-- The cursor has reached `h`. -/
def Reached (h : ℕ) (s : State ℓ τ n) : Prop := h ≤ s.mem.timerCloseCursor

theorem stable_reached (h : ℕ) : Stable (terms role c₀ t) (Reached h : State ℓ τ n → Prop) :=
  stable_of_guar fun _ _ _ _ _ _ hg hr => Nat.le_trans hr hg.cursor

/-- The slot's windows up to `start` are over. -/
def Past (level index start : ℕ) (s : State ℓ τ n) : Prop := start < s.mem.high level index

theorem stable_past (level index start : ℕ) :
    Stable (terms role c₀ t) (Past level index start : State ℓ τ n → Prop) :=
  stable_of_guar fun _ _ _ _ _ _ hg hr => Nat.lt_of_lt_of_le hr (hg.high level index)

/-- The deadline's tick is over: the cursor has passed it, or its window was drained. -/
def Late (deadline : ℕ) (s : State ℓ τ n) : Prop :=
  deadline < s.mem.timerCloseCursor ∨ ∃ d ∈ s.ghost.drained,
    d.level = 0 ∧ d.index = slotIndex 0 deadline ∧ d.baseTick = deadline

theorem stable_late (deadline : ℕ) :
    Stable (terms role c₀ t) (Late deadline : State ℓ τ n → Prop) :=
  stable_of_guar fun _ _ _ _ _ _ hg h => h.imp (fun hlt => hlt.trans_le hg.cursor)
    fun ⟨d, hd, hd'⟩ => ⟨d, hg.drained d hd, hd'⟩

variable {s : State ℓ τ n}

/-- A late deadline is below the clock. -/
theorem Late.over {deadline : ℕ} (h : Late deadline s) (hi : Inv role c₀ s) :
    deadline < getMonotonicTicks s.mem.now := by
  rcases h with hlt | ⟨d, hd, -, -, rfl⟩
  · exact hlt.trans_le hi.trails
  · exact hi.drainedOver d hd

/-! ### Publication -/

/-- Thread `t` is about to publish a link with this deadline, from a position the cursor has
reached. -/
structure Inserting (t : τ) (link : ℓ) (p : Option ℓ) (rest : List ℓ) (deadline h : ℕ)
    (s : State ℓ τ n) : Prop where
  hand : Hand t [link] p rest s
  quiet : Quiet t s
  deadline : s.mem.deadlineTick link = deadline
  reached : Reached h s

theorem stable_inserting (link : ℓ) (p : Option ℓ) (rest : List ℓ) (deadline h : ℕ) :
    Stable (terms role c₀ t) (Inserting t link p rest deadline h : State ℓ τ n → Prop) := by
  refine stable_of_guar fun s s' u hu hi hi' hg hs => ?_
  have hrely : (terms role c₀ t).rely s s' := ⟨u, hu, hg⟩
  exact
    { hand := stable_hand _ _ _ s s' hi hi' hrely hs.hand
      quiet := stable_quiet s s' hi hi' hrely hs.quiet
      deadline := (hg.cells t hu.symm link (by simp [hs.hand.held])).2.trans hs.deadline
      reached := stable_reached h s s' hi hi' hrely hs.reached }

/-- A pair that was read from a slot after the cursor had reached `h`. -/
def Seen (level index h : ℕ) (seen : Option ℓ × ℕ) (s : State ℓ τ n) : Prop :=
  nextStart level index h ≤ seen.2 ∧
    seen.2 % timerWheelPeriod level = residue level index ∧ seen.2 ≤ s.mem.high level index

theorem stable_seen (level index h : ℕ) (seen : Option ℓ × ℕ) :
    Stable (terms role c₀ t) (Seen level index h seen : State ℓ τ n → Prop) :=
  stable_of_guar fun _ _ _ _ _ _ hg hs => ⟨hs.1, hs.2.1, hs.2.2.trans (hg.high level index)⟩

theorem Inv.seen (hi : Inv role c₀ s) {level index h : ℕ}
    (hl : level < levels) (hindex : index < slots) (hr : Reached h s) :
    Seen level index h (s.mem.low level index, s.mem.high level index) s :=
  ⟨(Window.next_mono (residue_lt hindex) hr).trans (hi.lower level hl index hindex),
    hi.mod level hl index hindex, le_rfl⟩

/-- The link was pushed here. -/
def Pushed (level index deadline : ℕ) (s : State ℓ τ n) (link : ℓ) : Prop :=
  s.ghost.place link = .slot level index ∧ s.mem.deadlineTick link = deadline

/-- And its occupancy bit was set. -/
def Marked (deadline : ℕ) (s : State ℓ τ n) (link : ℓ) : Prop :=
  s.ghost.stage link ≠ .pushed ∧ s.mem.deadlineTick link = deadline

theorem stable_pushed (level index deadline : ℕ) :
    Stable (terms role c₀ t)
      (Publishes t (Pushed level index deadline) : State ℓ τ n → Prop) :=
  stable_publishes fun _ _ _ hplace _ hdeadline _ _ h =>
    ⟨hplace.trans h.1, hdeadline.trans h.2⟩

theorem stable_marked (deadline : ℕ) :
    Stable (terms role c₀ t) (Publishes t (Marked deadline) : State ℓ τ n → Prop) :=
  stable_publishes fun _ _ _ _ hstage hdeadline _ _ h => ⟨hstage ▸ h.1, hdeadline.trans h.2⟩

section Publication

variable {link : ℓ} {p : Option ℓ} {rest : List ℓ} {deadline h : ℕ} {r : Route}

/-- The link is chained to what was seen in the slot. -/
def Tied (t : τ) (link : ℓ) (p : Option ℓ) (rest : List ℓ) (deadline h : ℕ) (q : Option ℓ)
    (s : State ℓ τ n) : Prop :=
  Inserting t link p rest deadline h s ∧ s.mem.next link = q

theorem stable_tied (q : Option ℓ) :
    Stable (terms role c₀ t) (Tied t link p rest deadline h q : State ℓ τ n → Prop) :=
  stable_of_guar fun s s' u hu hi hi' hg hs =>
    ⟨stable_inserting _ _ _ _ _ s s' hi hi' ⟨u, hu, hg⟩ hs.1,
      (hg.cells t hu.symm link (by simp [hs.1.hand.held])).1.trans hs.2⟩

/-- What an attempt to publish leaves. -/
def Attempted (t : τ) (link : ℓ) (p : Option ℓ) (rest : List ℓ) (deadline h : ℕ) (r : Route)
    (R : State ℓ τ n → ℓ → Prop) (x : Bool × Option ℓ × ℕ) (s : State ℓ τ n) : Prop :=
  if x.1 then Hand t [] p rest s ∧ Publishes t R s
  else Inserting t link p rest deadline h s ∧ Seen r.level r.index h x.2 s

theorem stable_attempted {R : State ℓ τ n → ℓ → Prop}
    (hR : Stable (terms role c₀ t) (Publishes t R)) (x : Bool × Option ℓ × ℕ) :
    Stable (terms role c₀ t) (Attempted t link p rest deadline h r R x) := by
  unfold Attempted
  split
  · exact (stable_hand _ _ _).and hR
  · exact (stable_inserting _ _ _ _ _).and (stable_seen _ _ _ _)

/-- The window a route leads to was seen to be gone. -/
theorem past_of_seen {seen : Option ℓ × ℕ} (hr : Routed deadline h r)
    (hseen : Seen r.level r.index h seen s) (hne : seen.2 ≠ r.expectedBase) :
    Past r.level r.index r.expectedBase s := by
  have hnext : r.expectedBase = nextStart r.level r.index h :=
    Window.eq_next (residue_lt hr.index) hr.mod hr.le hr.lt
  exact (lt_of_le_of_ne (hnext ▸ hseen.1) hne.symm).trans_le hseen.2.2

variable [DecidableEq ℓ]

theorem outline_tie (q : Option ℓ) :
    Outline (terms role c₀ t) (Inserting t link p rest deadline h : State ℓ τ n → Prop)
      (store (fun m => { m with next := update m.next link q }) fun _ g => g)
      fun _ => Tied t link p rest deadline h q := by
  refine outline_store (stable_inserting _ _ _ _ _) (fun _ => stable_tied _) fun s hi hs => ?_
  have hmem : link ∈ s.ghost.held t := by simp [hs.hand.held]
  refine ⟨hi.storeNext hmem q, ⟨?_, hs.quiet, hs.deadline, hs.reached⟩, update_self ..⟩
  refine { hs.hand with chain := hs.hand.chain.congr fun e he => update_of_ne ?_ _ _ }
  rintro rfl
  have := hi.heldNodup t
  rw [hs.hand.held] at this
  exact (List.nodup_cons.mp this).1 he

theorem outline_mark {level index : ℕ} :
    Outline (terms role c₀ t)
      (fun s : State ℓ τ n => Hand t [] p rest s ∧ Publishes t (Pushed level index deadline) s)
      (timerWheelMarkOccupied level index (Ghost.mark t))
      fun _ s => Hand t [] p rest s ∧ Publishes t (Marked deadline) s := by
  refine outline_store ((stable_hand _ _ _).and (stable_pushed _ _ _))
    (fun _ => (stable_hand _ _ _).and (stable_marked _)) fun s hi hs => ?_
  obtain ⟨hs, hpub⟩ := hs
  refine ⟨hi.mark fun l hl => (hpub l hl).1, ?_⟩
  rcases hd : s.ghost.duty t with _ | l
  · simp only [Ghost.mark, hd]
    refine ⟨{ hs with }, fun l hl => ?_⟩
    exact absurd (hl.symm.trans hd) (by simp)
  · simp only [Ghost.mark, hd]
    refine ⟨{ hs with }, fun l' hl => ?_⟩
    obtain rfl := Option.some.inj (hl.symm.trans hd)
    exact ⟨by simp, (hpub l' hd).2⟩

variable [DecidableEq τ]

theorem outline_casPublish (hr : Routed deadline h r) (observed : Option ℓ × ℕ)
    (hbase : observed.2 = r.expectedBase) :
    Outline (terms role c₀ t)
      (Tied t link p rest deadline h observed.1 : State ℓ τ n → Prop)
      (casSlot r.level r.index observed (some link, observed.2)
        (Ghost.publish t r.level r.index link) fun _ g => g)
      (Attempted t link p rest deadline h r (Pushed r.level r.index deadline)) := by
  refine outline_casSlot (stable_tied _) (stable_attempted (stable_pushed _ _ _))
    (fun s hi hs heq => ?_) fun s hi hs _ => ?_
  · obtain ⟨hs, hnext⟩ := hs
    subst heq
    have hmem : link ∈ s.ghost.held t := by simp [hs.hand.held]
    have hdue : s.mem.high r.level r.index ≤ s.mem.deadlineTick link := by
      rw [hs.deadline]
      exact hbase.trans_le hr.due
    simp only [setAt_eq_self]
    refine ⟨hi.publish hmem hs.quiet hs.hand.inside hr.level hr.index hnext hdue, ?_⟩
    refine ⟨⟨?_, hs.hand.chain, hs.hand.inside, hs.hand.bracket, hs.hand.clearing⟩, ?_⟩
    · simp [Ghost.publish, hs.hand.held]
    · intro l hl
      simp only [Ghost.publish, update_self, Option.some.injEq] at hl
      subst hl
      exact ⟨update_self .., hs.deadline⟩
  · exact ⟨⟨hi, Guar.refl s⟩, hs.1, hi.seen hr.level hr.index hs.1.reached⟩

theorem outline_timerWheelTryPublish (hr : Routed deadline h r) (observed : Option ℓ × ℕ)
    (hbase : observed.2 = r.expectedBase) :
    Outline (terms role c₀ t)
      (Inserting t link p rest deadline h : State ℓ τ n → Prop)
      (timerWheelTryPublish t r.level r.index observed link)
      (Attempted t link p rest deadline h r (Marked deadline)) := by
  refine .bind (outline_tie observed.1) fun _ => .bind (outline_casPublish hr observed hbase) ?_
  rintro ⟨won, seen⟩
  cases won
  · exact outline_ret (stable_attempted (stable_pushed _ _ _) _) fun s _ hs => hs
  · exact .bind outline_mark fun _ =>
      outline_ret ((stable_hand _ _ _).and (stable_marked _)) fun s _ hs => hs

theorem outline_publishInto (hr : Routed deadline h r) (observed : Option ℓ × ℕ) :
    Outline (terms role c₀ t)
      (fun s : State ℓ τ n => Inserting t link p rest deadline h s ∧
        Seen r.level r.index h observed s)
      (publishInto t r link observed)
      fun published s => if published then Hand t [] p rest s ∧ Publishes t (Marked deadline) s
        else Inserting t link p rest deadline h s ∧ Past r.level r.index r.expectedBase s := by
  refine .loop (fun observed s => Inserting t link p rest deadline h s ∧
    Seen r.level r.index h observed s) observed (fun observed => ?_) fun published => ?_
  · have hstable : Stable (terms role c₀ t) fun s : State ℓ τ n =>
        Inserting t link p rest deadline h s ∧ Seen r.level r.index h observed s :=
      (stable_inserting _ _ _ _ _).and (stable_seen _ _ _ _)
    by_cases hbase : observed.2 = r.expectedBase
    · simp only [if_pos hbase]
      refine .bind ((outline_timerWheelTryPublish hr observed hbase).pre hstable
        fun s _ hs => hs.1) ?_
      rintro ⟨won, seen⟩
      cases won
      · exact outline_ret (stable_attempted (stable_marked _) _) fun s _ hs => hs
      · exact outline_ret (stable_attempted (stable_marked _) _) fun s _ hs => hs
    · simp only [if_neg hbase]
      exact outline_ret hstable fun s _ hs => ⟨hs.1, past_of_seen hr hs.2 hbase⟩
  · cases published
    · exact (stable_inserting _ _ _ _ _).and (stable_past _ _ _)
    · exact (stable_hand _ _ _).and (stable_marked _)

/-- The sleepers not in `is` were looked at: one sleeps beyond the deadline, or none is unaware of
the link. -/
def Kicking (deadline : ℕ) (is : List (Fin n)) (hasSleeper : Bool) (s : State ℓ τ n)
    (link : ℓ) : Prop :=
  Marked deadline s link ∧ (hasSleeper = true ∨ ∀ j, j ∉ is → s.ghost.late j link = false)

/-- The link is looked after. -/
def Settling (s : State ℓ τ n) (link : ℓ) : Prop :=
  s.ghost.stage link ≠ .pushed ∧ Covered s link

theorem stable_kicking (is : List (Fin n)) (hasSleeper : Bool) :
    Stable (terms role c₀ t)
      (Publishes t (Kicking deadline is hasSleeper) : State ℓ τ n → Prop) :=
  stable_publishes fun _ _ _ _ hstage hdeadline hlate _ h =>
    ⟨⟨hstage ▸ h.1.1, hdeadline.trans h.1.2⟩, h.2.imp_right fun hall j hj =>
      Bool.eq_false_iff.mpr fun htrue => Bool.eq_false_iff.mp (hall j hj) (hlate j htrue)⟩

theorem stable_settling :
    Stable (terms role c₀ t) (Publishes t Settling : State ℓ τ n → Prop) :=
  stable_publishes fun _ _ _ _ hstage _ _ hcovered h => ⟨hstage ▸ h.1, hcovered h.2⟩

/-- Where no loop is unaware of a link, it is looked after. -/
theorem covered_of_aware (hall : ∀ j, s.ghost.late j link = false) :
    Covered s link := by
  by_cases hex : ∃ j, s.ghost.registered j = true
  · obtain ⟨j, hj⟩ := hex
    exact .inr (.inl ⟨j, hj, .inr (.inl (hall j))⟩)
  · exact .inr (.inr fun j => Bool.eq_false_iff.mpr fun hj => hex ⟨j, hj⟩)

theorem outline_kickFrom (is : List (Fin n)) (hasSleeper : Bool) :
    Outline (terms role c₀ t)
      (fun s : State ℓ τ n => Hand t [] p rest s ∧
        Publishes t (Kicking deadline is hasSleeper) s)
      (kickFrom deadline is hasSleeper)
      fun _ s => Hand t [] p rest s ∧ Publishes t Settling s := by
  have hpost : Stable (terms role c₀ t) fun s : State ℓ τ n =>
      Hand t [] p rest s ∧ Publishes t Settling s := (stable_hand _ _ _).and stable_settling
  induction is generalizing hasSleeper with
  | nil =>
    have hpre : Stable (terms role c₀ t) fun s : State ℓ τ n =>
        Hand t [] p rest s ∧ Publishes t (Kicking deadline [] hasSleeper) s :=
      (stable_hand _ _ _).and (stable_kicking _ _)
    cases hasSleeper with
    | true =>
      simp only [kickFrom, wakeupLoop, if_true]
      refine outline_store hpre (fun _ => hpost) fun s hi hs => ⟨hi.ring, { hs.1 with }, ?_⟩
      exact fun l hl => ⟨(hs.2 l hl).1.1, .inl rfl⟩
    | false =>
      refine outline_ret hpre fun s hi hs => ⟨hs.1, fun l hl => ⟨(hs.2 l hl).1.1, ?_⟩⟩
      exact covered_of_aware fun j => ((hs.2 l hl).2.resolve_left (by simp)) j (by simp)
  | cons i is ih =>
    have hmid : ∀ wake, Stable (terms role c₀ t) fun s : State ℓ τ n => Hand t [] p rest s ∧
        if wake ≤ deadline + 1 then Publishes t Settling s
        else Publishes t (Kicking deadline is (hasSleeper || decide (wake ≠ awake))) s := by
      intro wake
      split
      · exact hpost
      · exact (stable_hand _ _ _).and (stable_kicking _ _)
    refine .bind (outline_load ((stable_hand _ _ _).and (stable_kicking _ _)) hmid ?_) fun wake => ?_
    · rintro s hi ⟨hs, hkick⟩
      refine ⟨hs, ?_⟩
      split
      · next hle =>
        intro l hl
        obtain ⟨hmarked, -⟩ := hkick l hl
        refine ⟨hmarked.1, .inr (.inl ⟨i, hi.present i fun hawake => ?_, .inr (.inr ?_)⟩)⟩
        · obtain ⟨-, level, index, hp⟩ := hi.dutyParked t l hl
          have hlimit := hi.limit l (by simp [hp])
          rw [hawake, ← hmarked.2] at hle
          exact absurd (hle.trans (Nat.succ_le_succ hlimit)) (by decide)
        · rw [hmarked.2]
          exact hle
      · intro l hl
        obtain ⟨hmarked, hor⟩ := hkick l hl
        refine ⟨hmarked, ?_⟩
        by_cases hawake : s.mem.wakeTick i = awake
        · refine hor.imp (fun hsleeper => by simp [hsleeper]) fun hall j hj => ?_
          by_cases hji : j = i
          · exact hji ▸ hi.aware i hawake l
          · exact hall j (by simp [hji, hj])
        · exact .inl (by simp [hawake])
    · by_cases hle : wake ≤ deadline + 1
      · simp only [if_pos hle]
        exact outline_ret hpost fun s _ hs => hs
      · simp only [if_neg hle]
        exact ih _

theorem outline_timerKickUncoveredSleepers :
    Outline (terms role c₀ t)
      (fun s : State ℓ τ n => Hand t [] p rest s ∧ Publishes t (Marked deadline) s)
      (timerKickUncoveredSleepers t deadline)
      fun _ s => Hand t [] p rest s ∧ Quiet t s := by
  refine .bind ((outline_kickFrom _ _).pre ((stable_hand _ _ _).and (stable_marked _))
    fun s _ hs => ⟨hs.1, fun l hl => ⟨hs.2 l hl, .inr fun j hj => ?_⟩⟩) fun _ => ?_
  · exact absurd (List.mem_finRange j) hj
  refine outline_store ((stable_hand _ _ _).and stable_settling)
    (fun _ => (stable_hand _ _ _).and stable_quiet) fun s hi hs => ⟨hi.settle hs.2, ?_⟩
  rcases hd : s.ghost.duty t with _ | l
  · simp only [Ghost.settle, hd]
    exact ⟨{ hs.1 with }, hd⟩
  · simp only [Ghost.settle, hd]
    exact ⟨{ hs.1 with }, update_self ..⟩

/-- The start of a drained window is a position the cursor has reached. -/
theorem Inv.reached_of_past (hi : Inv role c₀ s) (hr : Routed deadline h r)
    (hpast : Past r.level r.index r.expectedBase s) : Reached r.expectedBase s := by
  have hhigh := (Window.eq_or_add_le hr.mod (hi.mod _ hr.level _ hr.index) hpast.le).resolve_left
    hpast.ne'
  have hupper := hi.upper _ hr.level _ hr.index
  have hlt : nextStart r.level r.index (s.mem.timerCloseCursor + 1) <
      s.mem.timerCloseCursor + 1 + timerWheelPeriod r.level := Window.next_lt (period_pos _)
  unfold Reached
  omega

/-- On level zero, the drained window was the deadline's tick. -/
theorem Inv.late_of_past (hi : Inv role c₀ s) (hr : Routed deadline h r)
    (hc : c₀ ≤ h) (h0 : r.level = 0) (hpast : Past r.level r.index r.expectedBase s) :
    Late deadline s := by
  have hbase := hr.tick h0
  obtain ⟨d, hd, hlevel, hindex, hstart⟩ := hi.drainedAll r.level hr.level r.index hr.index
    r.expectedBase hr.mod (hc.trans hr.le) hpast
  refine .inr ⟨d, hd, hlevel.trans h0, ?_, hstart.trans hbase⟩
  have hslot := ((mod_period_eq_iff hr.index).mp hr.mod).2
  rw [hindex, ← hslot, hbase, h0]

/-- A link is published, or it is refused because it is due. -/
theorem outline_timerWheelInsert (hc : c₀ ≤ h) :
    Outline (terms role c₀ t)
      (Inserting t link p rest deadline h : State ℓ τ n → Prop)
      (timerWheelInsert t link h)
      fun published s => if published then Hand t [] p rest s ∧ Quiet t s
        else Inserting t link p rest deadline c₀ s ∧ Late deadline s := by
  have hpost : ∀ published, Stable (terms role c₀ t) fun s : State ℓ τ n =>
      if published = true then Hand t [] p rest s ∧ Quiet t s
        else Inserting t link p rest deadline c₀ s ∧ Late deadline s := by
    intro published
    cases published
    · exact (stable_inserting _ _ _ _ _).and (stable_late _)
    · exact (stable_hand _ _ _).and stable_quiet
  refine .bind (M := fun d s => d = deadline ∧ Inserting t link p rest deadline h s)
    (outline_load (stable_inserting _ _ _ _ _)
      (fun _ => (Stable.pure _).and (stable_inserting _ _ _ _ _))
      fun s _ hs => ⟨hs.deadline, hs⟩) fun d =>
    .assume (stable_inserting _ _ _ _ _) ?_
  rintro rfl
  -- each turn starts from a position that the cursor has reached
  refine (Outline.loop (fun cursor s => c₀ ≤ cursor ∧ Inserting t link p rest d cursor s) h
    (fun cursor => ?_) hpost).pre (stable_inserting _ _ _ _ _) fun s _ hs => ⟨hc, hs⟩
  refine .assume (stable_inserting _ _ _ _ _) fun hc => ?_
  have hrestart : ∀ {s : State ℓ τ n}, Inv role c₀ s → Inserting t link p rest d cursor s →
      Inserting t link p rest d c₀ s := fun hi hs => { hs with reached := hi.started }
  by_cases hlate : d < cursor
  · simp only [if_pos hlate]
    refine .bind (M := fun _ s => Inserting t link p rest d c₀ s ∧ Late d s)
      (outline_store (stable_inserting _ _ _ _ _) (fun _ => hpost false) fun s hi hs => ?_) fun _ =>
      outline_ret (hpost false) fun s _ hs => hs
    have hpassed : Late d s := .inl (hlate.trans_le hs.reached)
    refine ⟨hi.refuse hpassed, ?_, hpassed⟩
    exact { hrestart hi hs with hand := { hs.hand with } }
  simp only [if_neg hlate]
  have hr := route_spec (Nat.le_of_not_lt hlate)
  refine .bind (outline_load (stable_inserting _ _ _ _ _)
    (fun _ => (stable_inserting _ _ _ _ _).and (stable_seen _ _ _ _))
    fun s hi hs => ⟨hs, hi.seen hr.level hr.index hs.reached⟩) fun observed =>
    .bind (outline_publishInto hr observed) fun published => ?_
  cases published with
  | true =>
    refine .bind outline_timerKickUncoveredSleepers fun _ => ?_
    exact outline_ret (hpost true) fun s _ hs => hs
  | false =>
    have hstable : Stable (terms role c₀ t) fun s : State ℓ τ n =>
        Inserting t link p rest d cursor s ∧
          Past (route d cursor).level (route d cursor).index (route d cursor).expectedBase s :=
      (stable_inserting _ _ _ _ _).and (stable_past _ _ _)
    by_cases h0 : (route d cursor).level = 0
    · simp only [Bool.false_eq_true, if_false, if_pos h0]
      refine .bind (M := fun _ s => Inserting t link p rest d c₀ s ∧ Late d s)
        (outline_store hstable (fun _ => hpost false) fun s hi hs => ?_) fun _ =>
        outline_ret (hpost false) fun s _ hs => hs
      have hdrained := hi.late_of_past hr hc h0 hs.2
      refine ⟨hi.refuse hdrained, ?_, hdrained⟩
      exact { hrestart hi hs.1 with hand := { hs.1.hand with } }
    · simp only [Bool.false_eq_true, if_false, if_neg h0]
      refine outline_ret hstable fun s hi hs => ?_
      exact ⟨hc.trans hr.le, { hs.1 with reached := hi.reached_of_past hr hs.2 }⟩

end Publication

end Timers

end Asyncio

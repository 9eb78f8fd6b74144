import Asyncio.UserEvent.Owners

/-!
# What the functions of the timer leave alone

The functions of the timer touch the control word, the timer and the backend, and the account of the
schedules, which only grows. Everything else is left alone, so that an argument about something else
can take them in one step.

## Main definitions

* `Schedule.delivered` — the ticks of one publication that were delivered
* `Schedule.Timing` — what a step of these functions may do

## Main results

* `Schedule.timing_eventTimerPublishConfig`, `Schedule.timing_eventTimerProcessKernelOwner`
-/

namespace Asyncio

namespace UserEvent

open Concurrent List

namespace Schedule

open Ownership

variable {κ τ : Type}

/-! ### The account of the schedules -/

/-- The ticks of publication `number` that kernel owners added to deliveries. -/
def delivered (g : Schedules τ) (number : ℕ) : ℕ :=
  ((g.applied.filter (·.number = number)).map (·.counted)).sum

/-- A publication is applied once at most. -/
theorem delivered_eq {g : Schedules τ} (h : (g.applied.map Application.number).Nodup)
    {x : Application} (hx : x ∈ g.applied) : delivered g x.number = x.counted := by
  have hfilter : g.applied.filter (·.number = x.number) = [x] := by
    obtain ⟨before, after, heq⟩ := append_of_mem hx
    rw [heq] at h ⊢
    simp only [map_append, map_cons, nodup_append, nodup_cons, mem_cons, mem_map] at h
    have hbefore : before.filter (·.number = x.number) = [] := by
      simp only [filter_eq_nil_iff, decide_eq_true_eq]
      exact fun y hy heq => h.2.2 y.number ⟨y, hy, rfl⟩ x.number (.inl rfl) heq
    have hafter : after.filter (·.number = x.number) = [] := by
      simp only [filter_eq_nil_iff, decide_eq_true_eq]
      exact fun y hy heq => h.2.1.1 ⟨y, hy, heq⟩
    simp [filter_append, hbefore, hafter]
  simp [delivered, hfilter]

theorem delivered_eq_zero {g : Schedules τ} {number : ℕ}
    (h : ∀ x ∈ g.applied, x.number ≠ number) : delivered g number = 0 := by
  have hfilter : g.applied.filter (·.number = number) = [] := by
    simpa only [filter_eq_nil_iff, decide_eq_true_eq] using h
  simp [delivered, hfilter]

/-- Publications stay, and so does what was delivered. -/
structure Grows (s s' : State κ τ) : Prop where
  published : s.ghost.schedules.published ⊆ s'.ghost.schedules.published
  delivered : ∀ number, delivered s.ghost.schedules number ≤ delivered s'.ghost.schedules number

theorem Grows.of_eq {s s' : State κ τ}
    (hpublished : s'.ghost.schedules.published = s.ghost.schedules.published)
    (happlied : s'.ghost.schedules.applied = s.ghost.schedules.applied) : Grows s s' where
  published := by rw [hpublished]; exact fun _ h => h
  delivered := fun _ => by simp only [Schedule.delivered, happlied, Nat.le_refl]

theorem Grows.refl (s : State κ τ) : Grows s s := .of_eq rfl rfl

theorem Grows.trans {s s' s'' : State κ τ} (h : Grows s s') (h' : Grows s' s'') : Grows s s'' where
  published := fun _ hx => h'.published (h.published hx)
  delivered := fun number => (h.delivered number).trans (h'.delivered number)

theorem delivered_apply_le (g : Schedules τ) (x : Config) (number : ℕ) :
    delivered g number ≤ delivered (g.apply x) number := by
  simp only [delivered, Schedules.apply, filter_cons]
  split
  · simp
  · exact le_rfl

theorem delivered_count_le (g : Schedules τ) (count : ℕ) (exhausted : Bool) (number : ℕ) :
    delivered g number ≤ delivered (g.count count exhausted) number := by
  simp only [delivered, Schedules.count]
  cases g.applied with
  | nil => exact le_rfl
  | cons y rest =>
    simp only [modifyHead_cons, filter_cons]
    split
    · simp only [map_cons, sum_cons]
      omega
    · exact le_rfl

/-! ### Steps of the timer -/

/-- A step of the timer; the deletion's own publication ends what `deleting` records. -/
structure Timing (terminal : Bool) (s s' : State κ τ) : Prop extends TimerOnly s s', Grows s s' where
  deleteCalled : s'.ghost.schedules.deleteCalled = s.ghost.schedules.deleteCalled
  deleting : s'.ghost.schedules.deleting = s.ghost.schedules.deleting ∨
    terminal = true ∧ s'.ghost.schedules.deleting = none

variable {terminal : Bool}

theorem Timing.refl (s : State κ τ) : Timing terminal s s :=
  ⟨⟨rfl, rfl, rfl, rfl⟩, .refl s, rfl, .inl rfl⟩

theorem timing_read {β : Type} {f : Mem κ → β} :
    Within (Timing terminal) (read (τ := τ) f fun _ => id) :=
  .act fun s x s' heq => by
    cases heq
    exact .refl s

variable {expected desired : Control}

theorem timing_casControl {f : Schedules τ → Schedules τ}
    (hpublished : ∀ g : Schedules τ, g.published ⊆ (f g).published)
    (hdelivered : ∀ g number, delivered g number ≤ delivered (f g) number)
    (hcalled : ∀ g : Schedules τ, (f g).deleteCalled = g.deleteCalled)
    (hdeleting : ∀ g : Schedules τ, (f g).deleting = g.deleting ∨
      terminal = true ∧ (f g).deleting = none) :
    Within (Timing terminal) (casControl (κ := κ) expected desired (.onSchedules f)) :=
  .act fun s x s' heq => by
    dsimp only at heq
    split at heq
    · cases heq
      exact ⟨⟨rfl, rfl, rfl, rfl⟩, ⟨hpublished _, hdelivered _⟩, hcalled _, hdeleting _⟩
    · cases heq
      exact .refl s

/-- A compare-and-swap that changes neither the publications nor the applications. -/
theorem timing_casControl_of_eq {f : Schedules τ → Schedules τ}
    (hpublished : ∀ g : Schedules τ, (f g).published = g.published)
    (happlied : ∀ g : Schedules τ, (f g).applied = g.applied)
    (hcalled : ∀ g : Schedules τ, (f g).deleteCalled = g.deleteCalled)
    (hdeleting : ∀ g : Schedules τ, (f g).deleting = g.deleting) :
    Within (Timing terminal) (casControl (κ := κ) expected desired (.onSchedules f)) :=
  timing_casControl (fun g => (hpublished g).symm ▸ fun _ h => h)
    (fun g number => by simp only [delivered, happlied, Nat.le_refl]) hcalled
    fun g => .inl (hdeleting g)

theorem timing_eventTimerStop : Within (Timing terminal) (eventTimerStop (κ := κ) (τ := τ)) :=
  .act fun s x s' heq => by
    cases heq
    refine ⟨⟨?_, rfl, rfl, rfl⟩, .of_eq rfl rfl, rfl, .inl rfl⟩
    dsimp only
    split
    · rfl
    · split <;> rfl

theorem timing_eventTimerApplyConfig {current : Control} :
    Within (Timing terminal) (eventTimerApplyConfig (κ := κ) (τ := τ) current) := by
  refine .bind timing_eventTimerStop fun _ => .bind (timing_casControl (fun _ _ h => h)
    (fun g => delivered_apply_le g _) (fun _ => rfl) fun _ => .inl rfl) ?_
  rintro ⟨won, seen⟩
  dsimp only
  split
  · refine .bind ?_ fun _ => .ret _
    split
    · refine .pick fun s _ s' hs => ?_
      obtain ⟨ok, rfl⟩ | ⟨-, rfl⟩ := hs
      exacts [⟨⟨rfl, rfl, rfl, rfl⟩, .of_eq rfl rfl, rfl, .inl rfl⟩, .refl s']
    · exact .ret _
  · exact .ret _

variable [DecidableEq τ] {t : τ}

theorem timing_eventTimerTryRelease {current : Control} :
    Within (Timing terminal) (eventTimerTryRelease (κ := κ) t current) :=
  timing_casControl_of_eq (fun _ => rfl) (fun _ => rfl) (fun _ => rfl) fun _ => rfl

theorem timing_eventTimerProcessUserOwner {applied current : Control} :
    Within (Timing terminal) (eventTimerProcessUserOwner (κ := κ) t applied current) := by
  refine .loop _ fun ⟨appliedGeneration, current⟩ => ?_
  dsimp only
  split
  · exact .bind timing_eventTimerApplyConfig fun _ => .ret _
  · split
    · exact .bind (timing_casControl_of_eq (fun _ => rfl) (fun _ => rfl) (fun _ => rfl) fun _ => rfl)
        fun _ => .ret _
    · refine .bind timing_eventTimerTryRelease ?_
      rintro ⟨won, seen⟩
      dsimp only
      split
      exacts [.ret _, .ret _]

omit [DecidableEq τ] in
theorem timing_consumeEventTimerTick :
    Within (Timing terminal) (consumeEventTimerTick (κ := κ) (τ := τ)) := by
  refine .pick fun s r s' hs => ?_
  dsimp only at hs
  split at hs
  · obtain ⟨-, rfl⟩ := hs
    exact .refl s'
  · split at hs
    · obtain ⟨raw, -, rfl⟩ := hs
      exact ⟨⟨rfl, rfl, rfl, rfl⟩, .of_eq rfl rfl, rfl, .inl rfl⟩
    · obtain ⟨-, rfl⟩ := hs
      exact .refl s'

theorem timing_eventTimerProcessKernelOwner {applied current : Control} :
    Within (Timing false) (eventTimerProcessKernelOwner (κ := κ) t applied current) := by
  refine .loop _ fun ⟨appliedGeneration, current, deliveryCount, deliveryGeneration⟩ => ?_
  dsimp only
  split
  · exact .bind timing_eventTimerApplyConfig fun _ => .ret _
  split
  · refine .bind (timing_casControl_of_eq (fun _ => rfl) (fun _ => rfl) (fun _ => rfl)
      fun _ => rfl) ?_
    rintro ⟨won, seen⟩
    dsimp only
    split
    · refine .bind timing_consumeEventTimerTick ?_
      rintro ⟨count, exhausted⟩
      dsimp only
      refine .bind ?_ fun _ => ?_
      · split
        exacts [timing_eventTimerStop, .ret _]
      split
      · refine .bind timing_read fun _ => .bind (.act fun s x s' heq => ?_) fun _ => .ret _
        cases heq
        exact ⟨⟨rfl, rfl, rfl, rfl⟩,
          ⟨fun _ h => h, delivered_count_le s.ghost.schedules count exhausted⟩, rfl, .inl rfl⟩
      · exact .ret _
    · exact .ret _
  · refine .bind timing_eventTimerTryRelease ?_
    rintro ⟨won, seen⟩
    dsimp only
    split
    exacts [.ret _, .ret _]

theorem timing_eventTimerPublishConfig {period requiredGeneration : ℕ} {counter : ℤ} :
    Within (Timing terminal)
      (eventTimerPublishConfig (κ := κ) t period counter requiredGeneration terminal) := by
  refine .loop _ fun _ => .bind timing_read fun old => .bind ?_ fun deleting => ?_
  · split
    exacts [.ret _, timing_read]
  split
  · exact .ret _
  refine .bind (timing_casControl (fun _ _ h => .tail _ h) (fun _ _ => le_rfl)
    (fun _ => rfl) fun g => ?_) ?_
  · by_cases hterminal : terminal = true
    · exact .inr ⟨hterminal, if_pos hterminal⟩
    · exact .inl (if_neg hterminal)
  · rintro ⟨won, seen⟩
    dsimp only
    split
    · refine .bind ?_ fun _ => .ret _
      split
      exacts [.ret _, timing_eventTimerProcessUserOwner]
    · exact .ret _

omit [DecidableEq τ] in
theorem timing_tick {owned : Bool} {generation : ℕ} :
    Within (Timing false) (casControl (κ := κ) expected desired
      (.onSchedules (.tick t owned generation))) :=
  timing_casControl_of_eq (fun _ => rfl) (fun _ => rfl) (fun _ => rfl) fun _ => rfl

end Schedule

end UserEvent

end Asyncio

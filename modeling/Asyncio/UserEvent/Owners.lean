import Asyncio.UserEvent.Ownership

/-!
# The owners' loops

Outlines of everything that accesses the control word, for any system of threads in which these
accesses have their place: `Hosts` says what such a system has to allow. A thread may be asked for a
permission, which it keeps throughout.

## Main results

* `Ownership.Hosts.outline_eventTimerProcessUserOwner`,
  `Ownership.Hosts.outline_eventTimerProcessKernelOwner` — an owner serves the word until it can let go
* `Ownership.Hosts.outline_eventTimerPublishConfig` — nothing is published after the deletion's
  configuration
-/

namespace Asyncio

namespace UserEvent

namespace Ownership

open Concurrent

variable {κ τ : Type} {t : τ} {P Q : State κ τ → Prop}

/-! ### Systems with a timer -/

/-- Only what belongs to the timer has changed. -/
structure TimerOnly (s s' : State κ τ) : Prop where
  mem : s'.mem =
    { s.mem with control := s'.mem.control, timer := s'.mem.timer, backend := s'.mem.backend }
  activations : s'.ghost.activations = s.ghost.activations
  deletion : s'.ghost.deletion = s.ghost.deletion
  life : s'.ghost.life = s.ghost.life

/-- A system with invariant `inv` and guarantee `guar`, in which a thread with the permission `may`
accesses the control word and the timer. -/
structure Hosts (inv : State κ τ → Prop) (guar : τ → State κ τ → State κ τ → Prop)
    (may : τ → State κ τ → Prop) : Prop where
  core : ∀ s, inv s → Inv s
  promise : ∀ u s s', guar u s s' → Promise u s s'
  stable : ∀ t u s s', u ≠ t → inv s → inv s' → guar u s s' → may t s → may t s'
  step : ∀ t s s', inv s → may t s → Inv s' → Promise t s s' → TimerOnly s s' →
    inv s' ∧ guar t s s' ∧ may t s'

/-! ### What a thread knows -/

/-- What the other threads leave alone. -/
def Steady (t : τ) (P : State κ τ → Prop) : Prop :=
  ∀ u s s', u ≠ t → Inv s → Inv s' → Promise u s s' → P s → P s'

theorem Steady.pure (φ : Prop) : Steady (κ := κ) t fun _ => φ := fun _ _ _ _ _ _ _ h => h

theorem Steady.and (hP : Steady t P) (hQ : Steady t Q) : Steady t fun s => P s ∧ Q s :=
  fun u s s' hu hi hi' hg h => ⟨hP u s s' hu hi hi' hg h.1, hQ u s s' hu hi hi' hg h.2⟩

theorem Steady.imp {φ : Prop} (h : φ → Steady t P) : Steady t fun s => φ → P s :=
  fun u s s' hu hi hi' hg hp hφ => h hφ u s s' hu hi hi' hg (hp hφ)

/-- `t` is the owner, and `F` holds of what it owns. -/
def Owns (t : τ) (F : Holding → Prop) (s : State κ τ) : Prop :=
  s.ghost.schedules.owners = [t] ∧ F (holding s)

variable {F : Holding → Prop}

theorem steady_owns : Steady (κ := κ) t (Owns t F) := by
  rintro u s s' hu - - hg ⟨howns, hF⟩
  obtain ⟨howns', hsame, -⟩ := hg.owned t hu.symm howns
  exact ⟨howns', hsame ▸ hF⟩

/-- `t` is the owner, and `F` holds of what it owns up to the limit. -/
def OwnsFew (t : τ) (F : Holding → Prop) (s : State κ τ) : Prop :=
  s.ghost.schedules.owners = [t] ∧ (Few s → F (holding s))

theorem steady_ownsFew : Steady (κ := κ) t (OwnsFew t F) := by
  rintro u s s' hu - - hg ⟨howns, hF⟩
  obtain ⟨howns', hsame, -⟩ := hg.owned t hu.symm howns
  exact ⟨howns', fun hf => hsame ▸ hF (hg.grows.trans_lt hf)⟩

/-- `t` is the owner, and has not applied the newest publication. -/
def OwnsUnapplied (t : τ) (s : State κ τ) : Prop :=
  s.ghost.schedules.owners = [t] ∧ s.ghost.schedules.unapplied = true

theorem steady_ownsUnapplied : Steady (κ := κ) t (OwnsUnapplied t) := by
  rintro u s s' hu - - hg ⟨howns, h⟩
  obtain ⟨howns', -, hunapplied⟩ := hg.owned t hu.symm howns
  exact ⟨howns', hunapplied h⟩

/-- An owner whose applied generation is `a` and that last saw `current`. -/
structure Serving (t : τ) (a : ℕ) (current : Control) (s : State κ τ) : Prop where
  owns : Owns t (fun h => h.appliedGeneration = a ∧ h.Balanced) s
  settled : OwnsFew t (fun h => current.generation = a → h.Settled) s
  unapplied : current.generation ≠ a → OwnsUnapplied t s

variable {a : ℕ} {current : Control}

theorem steady_serving :
    Steady (κ := κ) t (Serving t a current) :=
  fun u s s' hu hi hi' hg h =>
    ⟨steady_owns u s s' hu hi hi' hg h.owns, steady_ownsFew u s s' hu hi hi' hg h.settled,
      fun hne => steady_ownsUnapplied u s s' hu hi hi' hg (h.unapplied hne)⟩

/-- Whoever lost a race looks again at the word that is there. -/
theorem Serving.again {s : State κ τ} (hi : Core s)
    (howns : Owns t (fun h => h.appliedGeneration = a ∧ h.Balanced) s)
    (hsettled : Few s → s.mem.control.generation = a → (holding s).Settled) :
    Serving t a s.mem.control s where
  owns := howns
  settled := ⟨howns.1, hsettled⟩
  unapplied := fun hne =>
    ⟨howns.1, (hi.waiting fun heq => hne (heq.trans howns.2.1)).1⟩

/-- An owner that took `count` ticks off the counter and has not added them to its delivery; with
`running`, the timer of a used up schedule may still be armed. -/
structure Took (t : τ) (a count : ℕ) (exhausted running : Bool) (s : State κ τ) : Prop where
  owns : Owns t (fun h => h.appliedGeneration = a ∧ (count ≠ 0 → h.applied.head? ≠ none) ∧
    ∀ x, h.applied.head? = some x → x.counted + count = h.spent ∧
      (exhausted = true → 0 < x.config.counter ∧ h.spent = x.config.counter) ∧
      (running = false → 0 < x.config.counter → h.spent = x.config.counter → h.backend = none)) s
  settled : OwnsFew t Holding.Settled s

theorem steady_took {a count : ℕ} {exhausted running : Bool} :
    Steady (κ := κ) t (Took t a count exhausted running) :=
  fun u s s' hu hi hi' hg h =>
    ⟨steady_owns u s s' hu hi hi' hg h.owns, steady_ownsFew u s s' hu hi hi' hg h.settled⟩

theorem steady_used {generation : ℕ} :
    Steady (κ := κ) t fun s => Used s.ghost.schedules generation :=
  fun _ _ _ _ _ _ hg h => h.of_le hg.first hg.grows

/-- A publisher that saw `generation` in the word, at a time when the deletion's configuration was
not there. -/
def Saw (generation : ℕ) (s : State κ τ) : Prop :=
  Used s.ghost.schedules generation ∧
    (Few s → Terminal s.ghost.schedules → generation ≠ s.mem.control.generation)

theorem steady_saw {generation : ℕ} : Steady (κ := κ) t (Saw generation) := by
  rintro u s s' hu hi hi' hg ⟨hused, hsaw⟩
  refine ⟨hused.of_le hg.first hg.grows, fun hf hterminal => ?_⟩
  by_cases hbefore : Terminal s.ghost.schedules
  · rw [hi'.1.generation, hg.first, hg.terminal hf hbefore, ← hi.1.generation]
    exact hsaw (hg.grows.trans_lt hf) hbefore
  · -- the deletion's configuration is new, and so is its generation
    have hnew := (hg.announce hterminal).resolve_left hbefore
    have hlimit : s.ghost.schedules.publications + 1 < 2 ^ 32 - 1 := hnew ▸ hf
    rw [hi'.1.generation, hg.first, hnew, generationAt_succ, ← hi.1.generation]
    exact hi.1.fresh hlimit hused

/-- The deleter, before its configuration is published. -/
def Deleting (t : τ) (deleted : Bool) (s : State κ τ) : Prop :=
  s.ghost.schedules.deleting = some t ∧ s.mem.tag.deleted = deleted

theorem steady_deleting {deleted : Bool} : Steady (κ := κ) t (Deleting t deleted) := by
  rintro u s s' hu - - hg ⟨hdeleting, hdeleted⟩
  obtain ⟨hdeleting', hsame⟩ := hg.deleting t hu.symm hdeleting
  exact ⟨hdeleting', hsame.trans hdeleted⟩

/-- The account of an application that was made just now. -/
theorem Core.balanced_of_zero {s : State κ τ} (hi : Core s) {x : Application}
    (hhead : (holding s).applied.head? = some x) (hspent : (holding s).spent = 0) :
    (holding s).appliedGeneration = x.config.generation ∧ (holding s).Balanced := by
  obtain ⟨hgeneration, hcounted, -, -⟩ := hi.sound.head x hhead
  refine ⟨hgeneration.symm, fun y hy => ?_⟩
  cases hhead.symm.trans hy
  omega

/-! ### Rules -/

variable {inv : State κ τ → Prop} {guar : τ → State κ τ → State κ τ → Prop}
  {may : τ → State κ τ → Prop}

/-- An outline for a thread with the permission. -/
def Spec (inv : State κ τ → Prop) (guar : τ → State κ τ → State κ τ → Prop)
    (may : τ → State κ τ → Prop) (t : τ) {β : Type} (P : State κ τ → Prop)
    (p : Prog (State κ τ) β) (Q : β → State κ τ → Prop) : Prop :=
  Outline (poolTerms inv guar t) (fun s => may t s ∧ P s) p fun x s => may t s ∧ Q x s

namespace Hosts

variable (H : Hosts inv guar may)
include H

theorem stable_of_steady (hP : Steady t P) :
    Stable (poolTerms inv guar t) fun s => may t s ∧ P s := by
  rintro s s' hi hi' ⟨u, hu, hg⟩ ⟨hmay, hp⟩
  exact ⟨H.stable t u s s' hu hi hi' hg hmay,
    hP u s s' hu (H.core s hi) (H.core s' hi') (H.promise u s s' hg) hp⟩

variable {β : Type} {Q : β → State κ τ → Prop}

theorem spec_act {f : State κ τ → Option (β × State κ τ)} (hP : Steady t P) (hQ : ∀ x, Steady t (Q x))
    (h : ∀ s x s', f s = some (x, s') → Inv s → P s →
      Inv s' ∧ Promise t s s' ∧ TimerOnly s s' ∧ Q x s') :
    Spec inv guar may t P (.act f) Q := by
  refine .act (H.stable_of_steady hP) (fun x => H.stable_of_steady (hQ x))
    fun s x s' heq hi ⟨hmay, hp⟩ => ?_
  obtain ⟨hi', hg, honly, hq⟩ := h s x s' heq (H.core s hi) hp
  obtain ⟨hinv, hguar, hmay'⟩ := H.step t s s' hi hmay hi' hg honly
  exact ⟨hinv, hguar, hmay', hq⟩

theorem spec_pick {r : State κ τ → β → State κ τ → Prop} (hP : Steady t P) (hQ : ∀ x, Steady t (Q x))
    (h : ∀ s x s', r s x s' → Inv s → P s →
      Inv s' ∧ Promise t s s' ∧ TimerOnly s s' ∧ Q x s') :
    Spec inv guar may t P (.pick r) Q := by
  refine .pick (H.stable_of_steady hP) (fun x => H.stable_of_steady (hQ x))
    fun s x s' heq hi ⟨hmay, hp⟩ => ?_
  obtain ⟨hi', hg, honly, hq⟩ := h s x s' heq (H.core s hi) hp
  obtain ⟨hinv, hguar, hmay'⟩ := H.step t s s' hi hmay hi' hg honly
  exact ⟨hinv, hguar, hmay', hq⟩

theorem spec_ret {x : β} (hP : Steady t P)
    (h : ∀ s, Inv s → P s → Q x s) : Spec inv guar may t P (.ret x) Q :=
  .ret (H.stable_of_steady hP) fun s hi hp => ⟨hp.1, h s (H.core s hi) hp.2⟩

theorem spec_look {f : Mem κ → β} (hP : Steady t P)
    (hQ : ∀ x, Steady t (Q x)) (h : ∀ s, Inv s → P s → Q (f s.mem) s) :
    Spec inv guar may t P (read f fun _ => id) Q := by
  refine H.spec_act hP hQ fun s x s' heq hi hp => ?_
  cases heq
  exact ⟨hi, .refl s, ⟨rfl, rfl, rfl, rfl⟩, h s hi hp⟩

theorem spec_casControl {expected desired : Control} {won : Schedules τ → Schedules τ}
    {Q : Bool × Control → State κ τ → Prop} (hP : Steady t P) (hQ : ∀ x, Steady t (Q x))
    (hwon : ∀ s : State κ τ, Inv s → P s → s.mem.control = expected →
      Inv ⟨{ s.mem with control := desired }, s.ghost.onSchedules won⟩ ∧
      Promise t s ⟨{ s.mem with control := desired }, s.ghost.onSchedules won⟩ ∧
      Q (true, expected) ⟨{ s.mem with control := desired }, s.ghost.onSchedules won⟩)
    (hlost : ∀ s, Inv s → P s → s.mem.control ≠ expected → Q (false, s.mem.control) s) :
    Spec inv guar may t P (casControl expected desired (.onSchedules won)) Q := by
  refine H.spec_act hP hQ fun s x s' heq hi hp => ?_
  split at heq
  · next hc =>
    cases heq
    obtain ⟨hi', hg, hq⟩ := hwon s hi hp hc
    exact ⟨hi', hg, ⟨rfl, rfl, rfl, rfl⟩, hq⟩
  · next hc =>
    cases heq
    exact ⟨hi, .refl s, ⟨rfl, rfl, rfl, rfl⟩, hlost s hi hp hc⟩

/-! ### Applying a configuration -/

theorem outline_eventTimerStop {R : State κ τ → Prop} (hsteady : Steady t R)
    (hF : ∀ h timer, F h → F { h with timer := timer, backend := none })
    (hR : ∀ s, R s → R (State.stop s)) :
    Spec inv guar may t (fun s => Owns t F s ∧ R s) eventTimerStop
      fun _ s => Owns t (fun h => F h ∧ h.backend = none) s ∧ R s := by
  refine H.spec_act (steady_owns.and hsteady) (fun _ => steady_owns.and hsteady)
    fun s x s' heq hi ⟨⟨howns, hs⟩, hr⟩ => ?_
  cases heq
  have hF' : F (holding (State.stop s)) := by
    rcases hi.1.stop_cases with ⟨heq, -⟩ | ⟨state, -, heq⟩
    · rw [heq]
      exact hs
    · rw [heq]
      exact hF _ _ hs
  have honly : TimerOnly s (State.stop s) := by
    rcases hi.1.stop_cases with ⟨heq, -⟩ | ⟨state, -, heq⟩ <;> rw [heq] <;>
      exact ⟨rfl, rfl, rfl, rfl⟩
  have hdeleted : (State.stop s).mem.tag.deleted = s.mem.tag.deleted := by rw [honly.mem]
  have hi' : Inv (State.stop s) := ⟨hi.1.stop howns, fun hf => .stop hi.1 (hi.2 hf) howns⟩
  exact ⟨hi', .of_owner howns rfl rfl rfl (fun _ h => h) (fun _ h => h) rfl hdeleted, honly,
    ⟨howns, hF', hi.1.stop_backend⟩, hR s hr⟩

theorem outline_startTimer {x : Application} (hperiod : x.config.period ≠ 0) :
    Spec inv guar may t
      (Owns t fun h => h.applied.head? = some x ∧ h.spent = 0 ∧ h.armSucceeded = false)
      (startTimer x.config.generation x.config.period x.config.counter)
      fun _ => Owns t fun h =>
        h.appliedGeneration = x.config.generation ∧ h.Balanced ∧ h.Settled := by
  refine H.spec_pick steady_owns (fun _ => steady_owns) fun s r s' h hi hs => ?_
  obtain ⟨howns, hhead, hspent, hfailed⟩ := hs
  obtain ⟨hgeneration, hbalanced⟩ := hi.1.balanced_of_zero hhead hspent
  rcases h with ⟨ok, rfl⟩ | ⟨-, rfl⟩
  · have hi' : Inv (State.arm x.config ok s) :=
      ⟨hi.1.arm howns hhead hspent hperiod, fun hf => .arm hi.1 (hi.2 hf) howns hhead hperiod⟩
    refine ⟨hi', .of_owner howns rfl rfl rfl ?_ (fun _ h => h) rfl rfl, ⟨rfl, rfl, rfl, rfl⟩,
      howns, hgeneration, hbalanced, fun y hy _ hok _ => ?_⟩
    · intro G hG
      simp only [Ghost.onSchedules, Schedules.arm]
      split
      · exact List.mem_cons_of_mem _ hG
      · exact hG
    · have hok : ok = true := hok
      simp [holding, hok]
  · exact ⟨hi, .refl _, ⟨rfl, rfl, rfl, rfl⟩, howns, hgeneration, hbalanced,
      fun _ _ _ hok _ => absurd (hfailed.symm.trans hok) Bool.false_ne_true⟩

theorem outline_eventTimerApplyConfig (hne : current.generation ≠ a) :
    Spec inv guar may t (Serving t a current) (eventTimerApplyConfig current)
      fun r => Serving t (if r.1 then r.2.generation else a) r.2 := by
  -- the word stays a configuration while the old timer is stopped
  refine .bind (M := fun _ s => may t s ∧ Owns t (fun h =>
    (h.appliedGeneration = a ∧ h.Balanced) ∧ h.backend = none) s ∧ OwnsUnapplied t s)
    ((H.outline_eventTimerStop steady_ownsUnapplied (fun _ _ h => h) fun _ h => h).pre
      (H.stable_of_steady steady_serving) fun s _ hs => ⟨hs.1, hs.2.owns, hs.2.unapplied hne⟩)
    fun _ => ?_
  let New : Holding → Prop := fun h => ∃ number, h.applied.head? =
    some ⟨number, ⟨current.generation, current.low, current.counter⟩, 0, false⟩ ∧ h.spent = 0 ∧
    h.armSucceeded = false
  refine .bind (M := fun r s => may t s ∧ if r.1 then Owns t New s else Serving t a r.2 s)
    (H.spec_casControl (steady_owns.and steady_ownsUnapplied) ?_ ?_ ?_) ?_
  · rintro ⟨_ | _, seen⟩
    · exact steady_serving
    · exact steady_owns
  · rintro s hi ⟨⟨howns, ⟨hgeneration, -⟩, hnone⟩, -, hunapplied⟩ rfl
    have hi' : Inv (State.apply s) :=
      ⟨hi.1.apply howns (fun heq => hne (heq.trans hgeneration)) hnone,
        fun hf => (hi.2 hf).apply hunapplied⟩
    exact ⟨hi', .of_owner howns rfl rfl rfl (fun _ h => h) (fun _ h => h) rfl rfl,
      howns, _, rfl, rfl, rfl⟩
  · rintro s hi ⟨⟨howns, hs, -⟩, -, hunapplied⟩ -
    exact .again hi.1 ⟨howns, hs⟩ fun hf heq =>
      absurd (heq.trans hs.1.symm) ((hi.2 hf).pending hunapplied).notApplied
  rintro ⟨_ | _, seen⟩
  · exact H.spec_ret steady_serving fun s _ hs => hs
  refine .bind (M := fun _ s => may t s ∧ Owns t (fun h =>
    h.appliedGeneration = current.generation ∧ h.Balanced ∧ h.Settled) s) ?_ fun _ =>
    H.spec_ret steady_owns fun s _ hs => ⟨⟨hs.1, hs.2.1, hs.2.2.1⟩, ⟨hs.1, fun _ _ => hs.2.2.2⟩,
      nofun⟩
  refine .obtain (R := fun number s => may t s ∧ Owns t (fun h => h.applied.head? =
    some ⟨number, ⟨current.generation, current.low, current.counter⟩, 0, false⟩ ∧ h.spent = 0 ∧
    h.armSucceeded = false) s) (H.stable_of_steady steady_owns) ?_ fun number => ?_
  · rintro s - ⟨hmay, howns, number, hs⟩
    exact ⟨number, hmay, howns, hs⟩
  by_cases hlow : current.low ≠ 0
  · rw [if_pos hlow]
    exact H.outline_startTimer
      (x := ⟨number, ⟨current.generation, current.low, current.counter⟩, 0, false⟩) hlow
  · rw [if_neg hlow]
    refine H.spec_ret steady_owns fun s hi ⟨howns, hhead, hspent, hfailed⟩ => ⟨howns, ?_⟩
    obtain ⟨hgeneration, hbalanced⟩ := hi.1.balanced_of_zero hhead hspent
    exact ⟨hgeneration, hbalanced, fun _ _ _ hok _ => absurd (hfailed.symm.trans hok) nofun⟩

/-! ### Letting go, and taking ticks -/

theorem outline_eventTimerTryRelease [DecidableEq τ] (heq : current.generation = a):
    Spec inv guar may t (Serving t a current) (eventTimerTryRelease t current)
      fun r s => r.1 = false → Serving t a r.2 s := by
  refine H.spec_casControl steady_serving (fun _ => .imp fun _ => steady_serving) ?_ ?_
  · rintro s hi ⟨⟨howns, hgeneration, hbalanced⟩, ⟨-, hsettled⟩, -⟩ rfl
    have hword := heq.trans hgeneration.symm
    have hi' : Inv (State.release t s) := ⟨hi.1.release howns hword hbalanced,
      fun hf => (hi.2 hf).release hword (hsettled hf heq)⟩
    refine ⟨hi', ?_, nofun⟩
    exact .of_owner howns rfl rfl rfl (fun _ h => h) (fun u hu => List.mem_of_mem_erase hu) rfl rfl
  · rintro s hi ⟨howns, ⟨-, hsettled⟩, -⟩ - -
    exact .again hi.1 howns fun hf _ => hsettled hf heq

/-- The owner takes the ticks out of the word, with `record` what becomes of their signals. -/
theorem outline_drop (heq : current.generation = a) (record : List ℕ → List (ℕ × ℕ))
    (hrecord : ∀ l, (∀ G ∈ l, G = a) → ∀ p ∈ record l, p.1 = p.2) :
    Spec inv guar may t (Serving t a current)
      (casControl current { current with low := 0 } (.onSchedules fun g =>
        { g with pendingFrom := [], drainedFrom := record g.pendingFrom ++ g.drainedFrom }))
      fun r => Serving t a (if r.1 then { current with low := 0 } else r.2) := by
  refine H.spec_casControl steady_serving (fun _ => steady_serving) ?_ ?_
  · rintro s hi ⟨⟨howns, hgeneration, hbalanced⟩, ⟨-, hsettled⟩, -⟩ rfl
    have hword := heq.trans hgeneration.symm
    have hi' : Inv (State.drop (record s.ghost.schedules.pendingFrom) s) :=
      ⟨hi.1.drop (hrecord _ fun G hG => (hi.1.ticks G hG).trans heq),
        fun hf => (hi.2 hf).drop hword⟩
    refine ⟨hi', .of_owner howns rfl rfl rfl (fun _ h => h) (fun _ h => h) rfl rfl, ?_⟩
    exact ⟨⟨howns, hgeneration, hbalanced⟩, ⟨howns, fun hf _ => hsettled hf heq⟩,
      fun hne => absurd heq hne⟩
  · rintro s hi ⟨howns, ⟨-, hsettled⟩, -⟩ -
    exact .again hi.1 howns fun hf _ => hsettled hf heq

theorem outline_eventTimerProcessUserOwner [DecidableEq τ] {applied current : Control} :
    Spec inv guar may t (Serving t applied.generation current)
      (eventTimerProcessUserOwner t applied current) fun _ _ => True := by
  refine .loop (fun (r : ℕ × Control) s => may t s ∧ Serving t r.1 r.2 s)
    (applied.generation, current) ?_ fun _ => H.stable_of_steady (.pure _)
  rintro ⟨a, current⟩
  dsimp only
  split
  · next hne =>
    refine .bind (H.outline_eventTimerApplyConfig hne) ?_
    rintro ⟨ok, current⟩
    exact .ret (H.stable_of_steady steady_serving) fun s _ hs => hs
  · next heq =>
    replace heq : current.generation = a := by simpa using heq
    split
    · refine .bind (H.outline_drop heq (fun _ => []) fun _ _ => nofun) ?_
      rintro ⟨won, seen⟩
      exact .ret (H.stable_of_steady steady_serving) fun s _ hs => hs
    · refine .bind (H.outline_eventTimerTryRelease heq) ?_
      rintro ⟨_ | _, seen⟩
      · exact .ret (H.stable_of_steady (.imp fun _ => steady_serving))
          fun s _ hs => ⟨hs.1, hs.2 rfl⟩
      · exact .ret (H.stable_of_steady (.imp fun _ => steady_serving))
          fun s _ hs => ⟨hs.1, trivial⟩

/-! ### Kernel owners -/

theorem outline_consumeEventTimerTick (heq : current.generation = a) :
    Spec inv guar may t (Serving t a current) consumeEventTimerTick
      fun r => Took t a r.1 r.2 r.2 := by
  refine H.spec_pick steady_serving (fun _ => steady_took) fun s r s' hr hi hs => ?_
  obtain ⟨⟨howns, hgeneration, hbalanced⟩, ⟨-, hsettled⟩, -⟩ := hs
  have hsame : r = (0, false) ∧ s' = s →
      Inv s' ∧ Promise t s s' ∧ TimerOnly s s' ∧ Took t a r.1 r.2 r.2 s' := by
    rintro ⟨rfl, rfl⟩
    refine ⟨hi, .refl _, ⟨rfl, rfl, rfl, rfl⟩, ⟨howns, hgeneration, fun h => absurd rfl h,
      fun x hx => ⟨hbalanced x hx, nofun, fun _ hpos hspent => ?_⟩⟩, howns, fun hf => hsettled hf heq⟩
    exact (hi.1.sound.head x hx).2.2.2 hpos ((hbalanced x hx).trans hspent)
  split at hr
  · exact hsame hr
  next state htimer =>
  split at hr
  · next harmed =>
    obtain ⟨raw, rfl, rfl⟩ := hr
    clear hsame
    obtain ⟨x, h, hleft⟩ := hi.1.armed hbalanced htimer harmed
    have hcount : state.remaining ≠ 0 →
        (if state.remaining ≠ 0 then min raw state.remaining else raw) ≤ state.remaining := by
      intro h0
      rw [if_pos h0]
      exact Nat.min_le_right _ _
    generalize hk : (if state.remaining ≠ 0 then min raw state.remaining else raw) = count at *
    have hbackend : s.mem.backend ≠ none := fun hnone => absurd (hnone.symm.trans h.backend) nofun
    have hi' : Inv (State.consume state count s) :=
      ⟨hi.1.consume howns hbalanced htimer harmed hcount,
        fun hf => .of_holding hi.1 (hi.2 hf) howns rfl rfl ⟨_, rfl⟩⟩
    refine ⟨hi', .of_owner howns rfl rfl rfl (fun _ h => h) (fun _ h => h) rfl rfl,
      ⟨rfl, rfl, rfl, rfl⟩, ⟨howns, hgeneration, fun _ hnone => ?_, fun y hy => ?_⟩,
      howns, fun _ _ _ _ _ _ => hbackend⟩
    · exact absurd (hnone.symm.trans h.head) nofun
    · cases h.head.symm.trans hy
      have hspent : (holding s).spent = s.ghost.schedules.spent := rfl
      refine ⟨congrArg (· + count) (hbalanced x h.head), fun he => ?_, fun he hpos hfull => ?_⟩
      · obtain ⟨hne, hzero⟩ := of_decide_eq_true he
        have hpos : 0 < x.config.counter := Nat.pos_of_ne_zero fun h0 => hne (h.unlimited h0)
        have hlimited := h.limited hpos
        have hle := hcount hne
        refine ⟨hpos, ?_⟩
        show s.ghost.schedules.spent + count = x.config.counter
        omega
      · have hlimited := h.limited hpos
        have hne := hleft hpos
        have hle := hcount hne
        have hfull : s.ghost.schedules.spent + count = x.config.counter := hfull
        have hnot : ¬(state.remaining ≠ 0 ∧ state.remaining - count = 0) := of_decide_eq_false he
        exact absurd ⟨hne, by omega⟩ hnot
  · exact hsame hr

/-- The timer of a used up schedule is stopped. -/
theorem outline_stopExhausted {a count : ℕ} {exhausted : Bool} :
    Spec inv guar may t (Took t a count exhausted exhausted)
      (if exhausted then eventTimerStop else return ())
      fun _ => Took t a count exhausted false := by
  cases exhausted with
  | false => exact H.spec_ret steady_took fun s _ hs => hs
  | true =>
    refine .conseq (H.stable_of_steady steady_took) ?_ (H.outline_eventTimerStop (t := t)
      (F := fun h => h.appliedGeneration = a ∧ (count ≠ 0 → h.applied.head? ≠ none) ∧
        ∀ x, h.applied.head? = some x → x.counted + count = h.spent ∧
          0 < x.config.counter ∧ h.spent = x.config.counter) (R := fun _ => True) (.pure _)
        (fun _ _ h => h) fun _ h => h) ?_
    · rintro s - ⟨hmay, ⟨howns, hgeneration, hne, hall⟩, -⟩
      exact ⟨hmay, ⟨howns, hgeneration, hne, fun x hx =>
        ⟨(hall x hx).1, (hall x hx).2.1 rfl⟩⟩, trivial⟩
    · rintro _ s - ⟨hmay, ⟨howns, ⟨hgeneration, hne, hall⟩, hnone⟩, -⟩
      refine ⟨hmay, ⟨howns, hgeneration, hne, fun x hx =>
        ⟨(hall x hx).1, fun _ => (hall x hx).2, fun _ _ _ => hnone⟩⟩, howns,
        fun _ x hx _ _ hopen => ?_⟩
      obtain ⟨-, hpos, hspent⟩ := hall x hx
      omega

theorem outline_count {a count : ℕ} {exhausted : Bool} (current : Control)
    (heq : current.generation = a) (hcount : count ≠ 0) :
    Spec inv guar may t (Took t a count exhausted false)
      (instr (fun m => ((), m)) fun _ => .onSchedules (.count count exhausted))
      fun _ => Serving t a current := by
  refine H.spec_act steady_took (fun _ => steady_serving) fun s r s' h hi hs => ?_
  cases h
  obtain ⟨⟨howns, hgeneration, hne, hall⟩, -, hsettled⟩ := hs
  obtain ⟨x, hx⟩ := Option.ne_none_iff_exists'.mp (hne hcount)
  obtain ⟨hspent, hexhausted, hstop⟩ := hall x hx
  have hi' : Inv (State.count count exhausted s) :=
    ⟨hi.1.count howns hx hspent (hstop rfl) hexhausted, fun hf => .count hi.1 (hi.2 hf) howns⟩
  have hhead : (holding (State.count count exhausted s)).applied.head? =
      some ⟨x.number, x.config, x.counted + count, x.exhausted || exhausted⟩ := by
    have hx : s.ghost.schedules.applied.head? = some x := hx
    show (s.ghost.schedules.applied.modifyHead _).head? = _
    rw [List.head?_modifyHead, hx]
    rfl
  refine ⟨hi', .of_owner howns rfl rfl rfl (fun _ h => h) (fun _ h => h) rfl rfl,
    ⟨rfl, rfl, rfl, rfl⟩, ⟨howns, hgeneration, fun y hy => ?_⟩, ⟨howns, fun hf _ y hy => ?_⟩,
    fun hne => absurd heq hne⟩
  · cases hhead.symm.trans hy
    exact hspent
  · cases hhead.symm.trans hy
    exact hsettled hf x hx

theorem outline_eventTimerProcessKernelOwner [DecidableEq τ] {applied current : Control} :
    Spec inv guar may t (Serving t applied.generation current)
      (eventTimerProcessKernelOwner t applied current) fun _ _ => True := by
  refine .loop (fun (r : ℕ × Control × ℕ × ℕ) s => may t s ∧ Serving t r.1 r.2.1 s)
    (applied.generation, current, 0, 0) ?_ fun _ => H.stable_of_steady (.pure _)
  rintro ⟨a, current, deliveryCount, deliveryGeneration⟩
  dsimp only
  split
  · next hne =>
    refine .bind (H.outline_eventTimerApplyConfig hne) ?_
    rintro ⟨ok, current⟩
    exact .ret (H.stable_of_steady steady_serving) fun s _ hs => hs
  next heq =>
  replace heq : current.generation = a := by simpa using heq
  split
  · refine .bind (H.outline_drop heq (List.map (a, ·)) ?_) ?_
    · rintro l hl p hp
      obtain ⟨G, hG, rfl⟩ := List.mem_map.mp hp
      exact (hl G hG).symm
    rintro ⟨_ | _, seen⟩
    · exact .ret (H.stable_of_steady steady_serving) fun s _ hs => hs
    refine .bind (H.outline_consumeEventTimerTick heq) ?_
    rintro ⟨count, exhausted⟩
    refine .bind H.outline_stopExhausted fun _ => ?_
    split
    · next hcount =>
      refine .bind (M := fun _ s => may t s ∧ Took t a count exhausted false s)
        (H.spec_look steady_took (fun _ => steady_took) fun s _ hs => hs) fun callback => ?_
      refine .bind (H.outline_count { current with low := 0 } heq hcount) fun _ => ?_
      exact .ret (H.stable_of_steady steady_serving) fun s _ hs => hs
    · next hcount =>
      refine .ret (H.stable_of_steady steady_took) fun s _ hs => ?_
      obtain ⟨hmay, ⟨howns, hgeneration, -, hall⟩, -, hsettled⟩ := hs
      have h0 : count = 0 := by simpa using hcount
      subst h0
      exact ⟨hmay, ⟨howns, hgeneration, fun x hx => (hall x hx).1⟩, ⟨howns, fun hf _ => hsettled hf⟩,
        fun hne => absurd heq hne⟩
  · refine .bind (H.outline_eventTimerTryRelease heq) ?_
    rintro ⟨_ | _, seen⟩
    · exact .ret (H.stable_of_steady (.imp fun _ => steady_serving))
        fun s _ hs => ⟨hs.1, hs.2 rfl⟩
    · exact .ret (H.stable_of_steady (.imp fun _ => steady_serving))
        fun s _ hs => ⟨hs.1, trivial⟩

/-! ### Publications -/

/-- Any publication; the deleter's own is the terminal one, and has no period. -/
theorem outline_eventTimerPublishConfig [DecidableEq τ] {period requiredGeneration : ℕ} {counter : ℤ}
    {terminal : Bool} (hterminal : terminal = true → period = 0) :
    Spec inv guar may t (fun s => terminal = true → Deleting t true s)
      (eventTimerPublishConfig t period counter requiredGeneration terminal) fun _ _ => True := by
  have hdeleting : Steady (κ := κ) t fun s => terminal = true → Deleting t true s :=
    .imp fun _ => steady_deleting
  refine .loop (fun (_ : Unit) s => may t s ∧ (terminal = true → Deleting t true s)) ()
    (fun _ => ?_) fun _ => H.stable_of_steady (.pure _)
  refine .bind (M := fun (old : Control) s => may t s ∧
    Used s.ghost.schedules old.generation ∧ (terminal = true → Deleting t true s))
    (H.spec_look hdeleting (fun _ => steady_used.and hdeleting) fun s hi hs =>
      ⟨⟨_, le_rfl, hi.1.generation⟩, hs⟩) fun old => ?_
  have hsaw : Steady (κ := κ) t fun s => Saw old.generation s ∧
    (terminal = true → Deleting t true s) := steady_saw.and hdeleting
  refine .bind (M := fun (deleting : Bool) s => may t s ∧ (deleting = false →
    Saw old.generation s ∧ (terminal = true → Deleting t true s))) ?_ fun deleting => ?_
  · cases terminal with
    | true =>
      refine H.spec_ret (steady_used.and hdeleting) fun s hi hs _ => ⟨⟨hs.1, fun _ h => ?_⟩, hs.2⟩
      exact absurd h (hi.1.deleting t (hs.2 rfl).1).2
    | false =>
      show Outline _ _ (eventReferenceIsDeleting fun _ => id) _
      refine H.spec_look (steady_used.and hdeleting) (fun _ => .imp fun _ => hsaw)
        fun s hi hs halive => ⟨⟨hs.1, fun hf ⟨x, hx, h⟩ => ?_⟩, hs.2⟩
      exact absurd (((hi.2 hf).terminal x hx h).1.symm.trans halive) nofun
  split
  · exact .ret (H.stable_of_steady (.imp fun _ => hsaw)) fun s _ hs => ⟨hs.1, trivial⟩
  next hgo =>
  have halive : deleting = false := by
    cases deleting
    · rfl
    · simp at hgo
  refine .pre (R := fun s => may t s ∧ Saw old.generation s ∧ (terminal = true → Deleting t true s))
    ?_ (H.stable_of_steady (.imp fun _ => hsaw)) fun s _ hs => ⟨hs.1, hs.2 halive⟩
  let x : Config :=
    ⟨eventTimerNextGeneration old.generation, min period maxTimeoutUs, counter.toNat⟩
  refine .bind (M := fun r s => may t s ∧ if r.1 then (old.owner = false →
      Serving t old.generation ⟨x.period, x.counter, x.generation, true⟩ s)
      else (terminal = true → Deleting t true s))
    (H.spec_casControl hsaw ?_ ?_ fun s _ hs _ => hs.2) ?_
  · rintro ⟨_ | _, seen⟩
    · exact hdeleting
    · exact .imp fun _ => steady_serving
  · rintro s hi ⟨⟨-, hsaw⟩, hdel⟩ rfl
    have hmay : MayPublish t x terminal s :=
      { next := rfl
        last := fun hf h => hsaw (Nat.lt_of_succ_lt hf) h rfl
        terminal := fun h => ⟨by simp [x, hterminal h], hdel h⟩ }
    have hi' : Inv (State.publish t x terminal s) :=
      ⟨hi.1.publish hmay, fun hf => (hi.2 (Nat.lt_of_succ_lt hf)).publish hi.1 hf hmay⟩
    have hg : Promise t s (State.publish t x terminal s) := .publish hi.1 hmay
    refine ⟨hi', hg, fun howner => ?_⟩
    have howners : (State.publish t x terminal s).ghost.schedules.owners = [t] := by
      simp [State.publish, Ghost.onSchedules, Schedules.publish, howner,
        hi.1.owners_of_clear howner]
    obtain ⟨hgeneration, hbalanced⟩ := hi.1.rest howner
    exact ⟨⟨howners, hgeneration.symm, hbalanced⟩,
      ⟨howners, fun hf _ => (hi.2 (Nat.lt_of_succ_lt hf)).rest howner⟩, fun _ => ⟨howners, rfl⟩⟩
  rintro ⟨_ | _, seen⟩
  · exact .ret (H.stable_of_steady hdeleting) fun s _ hs => hs
  refine .bind (M := fun _ s => may t s ∧ True) ?_ fun _ =>
    .ret (H.stable_of_steady (.pure _)) fun s _ hs => hs
  cases howner : old.owner with
  | true =>
    exact H.spec_ret (.imp fun _ => steady_serving) fun s _ _ => trivial
  | false =>
    exact H.outline_eventTimerProcessUserOwner.pre
      (H.stable_of_steady (.imp fun _ => steady_serving)) fun s _ hs => ⟨hs.1, hs.2 rfl⟩

/-- A tick of a generation that was armed; who sets the owner bit becomes the owner. -/
theorem outline_tick [DecidableEq τ] {timerGeneration tickCount : ℕ} {old : Control}
    (heq : old.generation = timerGeneration) :
    Spec inv guar may t (fun s => timerGeneration ∈ s.ghost.schedules.armedFor)
      (casControl old { old with low := (old.low + tickCount) % 2 ^ 64, owner := true }
        (.onSchedules (.tick t old.owner timerGeneration)))
      fun r s => timerGeneration ∈ s.ghost.schedules.armedFor ∧ (r.1 = true → old.owner = false →
        Serving t timerGeneration
          { old with low := (old.low + tickCount) % 2 ^ 64, owner := true } s) := by
  have harmed : Steady (κ := κ) t fun s => timerGeneration ∈ s.ghost.schedules.armedFor :=
    fun _ _ _ _ _ _ hg h => hg.armedFor h
  refine H.spec_casControl harmed (fun _ => harmed.and (.imp fun _ => .imp fun _ => steady_serving))
    ?_ fun s _ hs _ => ⟨hs, nofun⟩
  rintro s hi hs rfl
  subst heq
  have hi' : Inv (State.tick t ((s.mem.control.low + tickCount) % 2 ^ 64) s) :=
    ⟨hi.1.tick, fun hf => (hi.2 hf).tick hs⟩
  refine ⟨hi', .tick hi.1, hs, fun _ howner => ?_⟩
  have howners : (if s.mem.control.owner then s.ghost.schedules.owners
      else t :: s.ghost.schedules.owners) = [t] := by
    simp [howner, hi.1.owners_of_clear howner]
  obtain ⟨hgeneration, hbalanced⟩ := hi.1.rest howner
  exact ⟨⟨howners, hgeneration.symm, hbalanced⟩, ⟨howners, fun hf _ => (hi.2 hf).rest howner⟩,
    fun hne => absurd rfl hne⟩

end Hosts

end Ownership

end UserEvent

end Asyncio

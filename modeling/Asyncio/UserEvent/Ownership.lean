import Asyncio.UserEvent.Instructions
import Mathlib.Data.List.Nodup
import Mathlib.Order.Nat

/-!
# One owner of the timer

The control word has two readings, and only its generation tells them apart. What makes this work is
that a generation is never published twice: then the word is a configuration exactly while its
generation is not the one that was applied last, and a tick of a generation that was armed can only
meet the word in its other reading. The timer and its account belong to the owner.

Generations are 32-bit words, so they are distinct only while fewer than `2 ^ 32 - 1` configurations
are published. The invariant has a part that holds in any case, `Core`, and a part that holds up to
this limit, `Unique`.

## Main definitions

* `Ownership.Core`, `Ownership.Unique`, `Ownership.Promise` — the invariant, and what each thread
  guarantees
* `Ownership.Holding`, `Ownership.Holding.Sound` — what belongs to the owner, and what always holds
  of it
-/

namespace Asyncio

namespace UserEvent

open Concurrent List

/-! ### Generations -/

/-- The generation after `n` publications. -/
def generationAt (first n : ℕ) : ℕ := eventTimerNextGeneration^[n] first

variable {generation : ℕ}

theorem eventTimerNextGeneration_eq (h : generation < 2 ^ 32) :
    eventTimerNextGeneration generation = generation % (2 ^ 32 - 1) + 1 := by
  by_cases hlast : (generation + 1) % 2 ^ 32 = 0
  · simp only [eventTimerNextGeneration, hlast, ne_eq, not_true_eq_false, if_false]
    omega
  · simp only [eventTimerNextGeneration, ne_eq, hlast, not_false_eq_true, if_true]
    omega

theorem generationAt_succ (first n : ℕ) :
    generationAt first (n + 1) = eventTimerNextGeneration (generationAt first n) :=
  Function.iterate_succ_apply' _ _ _

/-- Zero is skipped, so the generations come round after `2 ^ 32 - 1`. -/
theorem generationAt_eq {first : ℕ} (hfirst : first < 2 ^ 32) (n : ℕ) :
    generationAt first (n + 1) = (first + n) % (2 ^ 32 - 1) + 1 := by
  induction n with
  | zero => exact eventTimerNextGeneration_eq hfirst
  | succ n ih =>
    rw [generationAt_succ, ih, eventTimerNextGeneration_eq (by omega)]
    omega

theorem generationAt_ne {first n k : ℕ} (hfirst : first < 2 ^ 32) (hn : n + 1 < 2 ^ 32 - 1)
    (hk : k ≤ n) : generationAt first k ≠ generationAt first (n + 1) := by
  rw [generationAt_eq hfirst n]
  cases k with
  | zero =>
    simp only [generationAt, Function.iterate_zero, id_eq]
    omega
  | succ k =>
    rw [generationAt_eq hfirst k]
    omega

namespace Ownership

variable {κ τ : Type}

/-- `generation` has been in the control word. -/
def Used (g : Schedules τ) (generation : ℕ) : Prop :=
  ∃ k ≤ g.publications, generation = generationAt g.first k

/-- The limit: fewer than `2 ^ 32 - 1` publications. -/
def Few (s : State κ τ) : Prop := s.ghost.schedules.publications < 2 ^ 32 - 1

/-! ### What belongs to the owner -/

/-- The timer and its account. -/
structure Holding where
  timer : Option TimerState
  backend : Option (ℕ × ℕ)
  applied : List Application
  appliedGeneration : ℕ
  armSucceeded : Bool
  spent : ℕ

/-- What belongs to the owner of the timer. -/
def holding (s : State κ τ) : Holding :=
  ⟨s.mem.timer, s.mem.backend, s.ghost.schedules.applied, s.ghost.schedules.appliedGeneration,
    s.ghost.schedules.armSucceeded, s.ghost.schedules.spent⟩

namespace Holding

/-- The timer is armed for the newest application `x`. -/
structure Armed (h : Holding) (x : Application) (state : TimerState) : Prop where
  head : h.applied.head? = some x
  timer : h.timer = some state
  armed : state.armed = true
  backend : h.backend = some (x.config.generation, x.config.period)
  period : x.config.period ≠ 0
  succeeded : h.armSucceeded = true
  unlimited : x.config.counter = 0 → state.remaining = 0
  limited : 0 < x.config.counter → h.spent + state.remaining = x.config.counter

/-- What always holds of the timer and its account. -/
structure Sound (h : Holding) : Prop where
  /-- The backend is armed as the newest application says, or not. -/
  armed : h.backend ≠ none → ∃ x state, h.Armed x state
  backend : ∀ state, h.timer = some state → state.armed = true → h.backend ≠ none
  head : ∀ x, h.applied.head? = some x → x.config.generation = h.appliedGeneration ∧
    x.counted ≤ h.spent ∧ (0 < x.config.counter → h.spent ≤ x.config.counter) ∧
    (0 < x.config.counter → x.counted = x.config.counter → h.backend = none)
  /-- No schedule delivers more than its counter. -/
  bound : ∀ x ∈ h.applied, 0 < x.config.counter → x.counted ≤ x.config.counter
  exact : ∀ x ∈ h.applied, x.exhausted = true →
    0 < x.config.counter ∧ x.counted = x.config.counter

/-- All that was spent was counted. -/
def Balanced (h : Holding) : Prop := ∀ x, h.applied.head? = some x → x.counted = h.spent

/-- What the newest application asks for is in force. -/
def Settled (h : Holding) : Prop :=
  ∀ x, h.applied.head? = some x → x.config.period ≠ 0 → h.armSucceeded = true →
    (x.config.counter = 0 ∨ h.spent < x.config.counter) → h.backend ≠ none

end Holding

/-! ### Invariant and guarantee -/

/-- The deletion's configuration is published. -/
def Terminal (g : Schedules τ) : Prop := ∃ x ∈ g.published, x.terminal = true

/-- A word with another generation than the applied one is the newest publication, and that one was
not applied. -/
structure Waiting (c : Control) (g : Schedules τ) (x : Publication) : Prop where
  head : g.published.head? = some x
  generation : x.config.generation = c.generation
  counter : x.config.counter = c.counter
  fresh : ∀ y ∈ g.applied, y.number ≠ x.number

/-- The invariant, whatever the generations do. -/
structure Core (s : State κ τ) : Prop where
  first : s.ghost.schedules.first < 2 ^ 32
  generation : s.mem.control.generation =
    generationAt s.ghost.schedules.first s.ghost.schedules.publications
  owners : (s.mem.control.owner = true ∧ ∃ t, s.ghost.schedules.owners = [t]) ∨
    (s.mem.control.owner = false ∧ s.ghost.schedules.owners = [])
  rest : s.mem.control.owner = false →
    s.mem.control.generation = s.ghost.schedules.appliedGeneration ∧ (holding s).Balanced
  waiting : s.mem.control.generation ≠ s.ghost.schedules.appliedGeneration →
    s.ghost.schedules.unapplied = true ∧ ∃ x, Waiting s.mem.control s.ghost.schedules x
  ticks : ∀ generation ∈ s.ghost.schedules.pendingFrom, generation = s.mem.control.generation
  numbers : ∀ x ∈ s.ghost.schedules.published, x.number < s.ghost.schedules.publications
  published : (s.ghost.schedules.published.map Publication.number).Nodup
  applied : (s.ghost.schedules.applied.map Application.number).Nodup
  source : ∀ y ∈ s.ghost.schedules.applied, ∃ x ∈ s.ghost.schedules.published,
    x.number = y.number ∧ x.config.generation = y.config.generation ∧
      x.config.counter = y.config.counter
  sound : (holding s).Sound
  drained : ∀ p ∈ s.ghost.schedules.drainedFrom, p.1 = p.2
  deleting : ∀ t, s.ghost.schedules.deleting = some t →
    s.ghost.schedules.deleteCalled = true ∧ ¬ Terminal s.ghost.schedules
  alive : s.ghost.schedules.deleteCalled = false →
    s.mem.tag.deleted = false ∧ ¬ Terminal s.ghost.schedules

/-- The control word is a configuration: the newest published one, with a generation that nothing
else knows yet. -/
structure Pending (c : Control) (g : Schedules τ) : Prop where
  owner : c.owner = true
  head : ∃ number terminal,
    g.published.head? = some ⟨number, ⟨c.generation, c.low, c.counter⟩, terminal⟩
  notApplied : c.generation ≠ g.appliedGeneration
  notArmed : c.generation ∉ g.armedFor

/-- The invariant that rests on distinct generations. -/
structure Unique (s : State κ τ) : Prop where
  pending : s.ghost.schedules.unapplied = true → Pending s.mem.control s.ghost.schedules
  active : s.ghost.schedules.unapplied = false → s.ghost.schedules.applied.head?.map (·.config) =
    s.ghost.schedules.published.head?.map (·.config)
  usedApplied : Used s.ghost.schedules s.ghost.schedules.appliedGeneration
  usedArmed : ∀ generation ∈ s.ghost.schedules.armedFor, Used s.ghost.schedules generation
  usedPublished : ∀ x ∈ s.ghost.schedules.published, Used s.ghost.schedules x.config.generation
  distinct : (s.ghost.schedules.published.map (·.config.generation)).Nodup
  applied : ∀ y ∈ s.ghost.schedules.applied, ∃ x ∈ s.ghost.schedules.published,
    x.config = y.config
  here : ∀ generation ∈ s.ghost.schedules.armedFor,
    generation = s.mem.control.generation → generation ∈ s.ghost.schedules.armedHere
  unarmed : ∀ x ∈ s.ghost.schedules.published, x.config.period = 0 →
    x.config.generation ∉ s.ghost.schedules.armedFor
  rest : s.mem.control.owner = false → (holding s).Settled
  terminal : ∀ x ∈ s.ghost.schedules.published, x.terminal = true → s.mem.tag.deleted = true ∧
    s.ghost.schedules.published.head? = some x ∧ x.config.period = 0
  misplaced : s.ghost.schedules.misplaced = false
  crossed : s.ghost.schedules.crossed = false

/-- The invariant. -/
def Inv (s : State κ τ) : Prop := Core s ∧ (Few s → Unique s)

/-- What thread `t` guarantees of its steps. -/
structure Promise (t : τ) (s s' : State κ τ) : Prop where
  first : s'.ghost.schedules.first = s.ghost.schedules.first
  grows : s.ghost.schedules.publications ≤ s'.ghost.schedules.publications
  terminal : Few s' → Terminal s.ghost.schedules →
    s'.ghost.schedules.publications = s.ghost.schedules.publications
  announce : Terminal s'.ghost.schedules → Terminal s.ghost.schedules ∨
    s'.ghost.schedules.publications = s.ghost.schedules.publications + 1
  armedFor : s.ghost.schedules.armedFor ⊆ s'.ghost.schedules.armedFor
  owners : ∀ u ∈ s'.ghost.schedules.owners, u = t ∨ u ∈ s.ghost.schedules.owners
  owned : ∀ u, u ≠ t → s.ghost.schedules.owners = [u] → s'.ghost.schedules.owners = [u] ∧
    holding s' = holding s ∧
    (s.ghost.schedules.unapplied = true → s'.ghost.schedules.unapplied = true)
  deleting : ∀ u, u ≠ t → s.ghost.schedules.deleting = some u →
    s'.ghost.schedules.deleting = some u ∧ s'.mem.tag.deleted = s.mem.tag.deleted

theorem Promise.refl {t : τ} (s : State κ τ) : Promise t s s where
  first := rfl
  grows := le_rfl
  terminal := fun _ _ => rfl
  announce := .inl
  armedFor := fun _ h => h
  owners := fun _ h => .inr h
  owned := fun _ _ h => ⟨h, rfl, fun h => h⟩
  deleting := fun _ _ h => ⟨h, rfl⟩

/-- A step of the owner publishes nothing. -/
theorem Promise.of_owner {t : τ} {s s' : State κ τ} (howns : s.ghost.schedules.owners = [t])
    (hfirst : s'.ghost.schedules.first = s.ghost.schedules.first)
    (hpubs : s'.ghost.schedules.publications = s.ghost.schedules.publications)
    (hpublished : s'.ghost.schedules.published = s.ghost.schedules.published)
    (harmed : s.ghost.schedules.armedFor ⊆ s'.ghost.schedules.armedFor)
    (howners : s'.ghost.schedules.owners ⊆ s.ghost.schedules.owners)
    (hdeleting : s'.ghost.schedules.deleting = s.ghost.schedules.deleting)
    (hdeleted : s'.mem.tag.deleted = s.mem.tag.deleted) : Promise t s s' where
  first := hfirst
  grows := hpubs.ge
  terminal := fun _ _ => hpubs
  announce := fun h => .inl (by simpa only [Terminal, hpublished] using h)
  armedFor := harmed
  owners := fun u hu => .inr (howners hu)
  owned := fun u hu h => absurd (singleton_inj.mp (h.symm.trans howns)) hu
  deleting := fun u _ h => ⟨hdeleting.trans h, hdeleted⟩

/-! ### Publications and ticks -/

section Steps

variable {t : τ} {s : State κ τ}

theorem Used.of_le {g g' : Schedules τ} (h : Used g generation)
    (hfirst : g'.first = g.first) (hgrows : g.publications ≤ g'.publications) :
    Used g' generation := by
  obtain ⟨k, hk, rfl⟩ := h
  exact ⟨k, hk.trans hgrows, by rw [hfirst]⟩

/-- A new generation is none that was in the word before. -/
theorem Core.fresh (hi : Core s) (hfew : s.ghost.schedules.publications + 1 < 2 ^ 32 - 1)
    (h : Used s.ghost.schedules generation) :
    generation ≠ eventTimerNextGeneration s.mem.control.generation := by
  obtain ⟨k, hk, rfl⟩ := h
  rw [hi.generation, ← generationAt_succ]
  exact generationAt_ne hi.first hfew hk

theorem Core.owner_of_owned (hi : Core s) (howns : s.ghost.schedules.owners = [t]) :
    s.mem.control.owner = true := by
  rcases hi.owners with h | h
  · exact h.1
  · simp [howns] at h

theorem Core.owners_of_clear (hi : Core s) (h : s.mem.control.owner = false) :
    s.ghost.schedules.owners = [] := by
  rcases hi.owners with h' | h'
  · simp [h] at h'
  · exact h'.2

/-- The owner after somebody set the bit over a word that had it or not. -/
theorem Core.owners_set (hi : Core s) : ∃ u,
    (if s.mem.control.owner then s.ghost.schedules.owners else t :: s.ghost.schedules.owners) =
      [u] := by
  cases howner : s.mem.control.owner with
  | false => exact ⟨t, by simp [hi.owners_of_clear howner]⟩
  | true =>
    rcases hi.owners with ⟨-, u, hu⟩ | h
    · exact ⟨u, by simpa using hu⟩
    · simp [howner] at h

/-- The state after `t` has published `x` over the word that is there. -/
def State.publish (t : τ) (x : Config) (terminal : Bool) (s : State κ τ) : State κ τ :=
  ⟨{ s.mem with control := ⟨x.period, x.counter, x.generation, true⟩ },
    s.ghost.onSchedules (.publish t s.mem.control.owner x terminal)⟩

/-- A configuration may be published: it has the next generation, and the deletion's is the last. -/
structure MayPublish (t : τ) (x : Config) (terminal : Bool) (s : State κ τ) : Prop where
  next : x.generation = eventTimerNextGeneration s.mem.control.generation
  last : s.ghost.schedules.publications + 1 < 2 ^ 32 - 1 → ¬ Terminal s.ghost.schedules
  terminal : terminal = true → x.period = 0 ∧ s.ghost.schedules.deleting = some t ∧
    s.mem.tag.deleted = true

variable {terminal : Bool}

theorem Core.publish (hi : Core s) {x : Config} (h : MayPublish t x terminal s) :
    Core (State.publish t x terminal s) := by
  obtain ⟨u, hu⟩ := hi.owners_set (t := t)
  have hnumbers : ∀ y ∈ s.ghost.schedules.applied, y.number ≠ s.ghost.schedules.publications := by
    intro y hy
    obtain ⟨z, hz, heq, -⟩ := hi.source y hy
    exact heq ▸ (hi.numbers z hz).ne
  have hterminal : ∀ {φ : Prop}, (¬ Terminal s.ghost.schedules) → (terminal = true → φ) →
      Terminal (State.publish t x terminal s).ghost.schedules → φ := by
    rintro φ hnot hφ ⟨y, hy, hy'⟩
    rcases mem_cons.mp hy with rfl | hy
    · exact hφ hy'
    · exact absurd ⟨y, hy, hy'⟩ hnot
  exact
    { first := hi.first
      generation := by
        show x.generation =
          generationAt s.ghost.schedules.first (s.ghost.schedules.publications + 1)
        rw [generationAt_succ, ← hi.generation, ← h.next]
      owners := .inl ⟨rfl, u, hu⟩
      rest := nofun
      waiting := fun _ => ⟨rfl, _, rfl, rfl, rfl, hnumbers⟩
      ticks := nofun
      numbers := fun y hy => (mem_cons.mp hy).elim (fun h => h ▸ Nat.lt_succ_self _)
        fun h => (hi.numbers y h).trans (Nat.lt_succ_self _)
      published := nodup_cons.mpr ⟨fun h => by
        obtain ⟨y, hy, heq⟩ := mem_map.mp h
        exact (hi.numbers y hy).ne heq, hi.published⟩
      applied := hi.applied
      source := fun y hy => by
        obtain ⟨z, hz, heq⟩ := hi.source y hy
        exact ⟨z, mem_cons_of_mem _ hz, heq⟩
      sound := hi.sound
      drained := hi.drained
      deleting := fun u hu => by
        have hu : (if terminal then none else s.ghost.schedules.deleting) = some u := hu
        split at hu
        · exact absurd hu nofun
        · next hfalse =>
          exact ⟨(hi.deleting u hu).1, hterminal (hi.deleting u hu).2 hfalse⟩
      alive := fun hcalled => by
        refine ⟨(hi.alive hcalled).1, hterminal (hi.alive hcalled).2 fun htrue => ?_⟩
        exact absurd ((hi.deleting t (h.terminal htrue).2.1).1.symm.trans hcalled) nofun }

theorem Unique.publish (hi : Core s) (hu : Unique s) {x : Config}
    (hfew : s.ghost.schedules.publications + 1 < 2 ^ 32 - 1) (h : MayPublish t x terminal s) :
    Unique (State.publish t x terminal s) := by
  have hfresh : ∀ {generation}, Used s.ghost.schedules generation →
      generation ≠ x.generation := fun hG => h.next ▸ hi.fresh hfew hG
  have hmono : ∀ {generation}, Used s.ghost.schedules generation →
      Used (State.publish t x terminal s).ghost.schedules generation := fun h =>
    h.of_le rfl (Nat.le_succ _)
  have hnew : Used (State.publish t x terminal s).ghost.schedules x.generation :=
    ⟨s.ghost.schedules.publications + 1, le_rfl, by
      rw [h.next, hi.generation, ← generationAt_succ]; rfl⟩
  exact
    { pending := fun _ =>
        { owner := rfl
          head := ⟨_, _, rfl⟩
          notApplied := (hfresh hu.usedApplied).symm
          notArmed := fun h => hfresh (hu.usedArmed _ h) rfl }
      active := nofun
      usedApplied := hmono hu.usedApplied
      usedArmed := fun G hG => hmono (hu.usedArmed G hG)
      usedPublished := fun y hy => (mem_cons.mp hy).elim (fun h => h ▸ hnew)
        fun h => hmono (hu.usedPublished y h)
      distinct := nodup_cons.mpr ⟨fun h => by
        obtain ⟨y, hy, heq⟩ := mem_map.mp h
        exact hfresh (hu.usedPublished y hy) heq, hu.distinct⟩
      applied := fun y hy => by
        obtain ⟨z, hz, heq⟩ := hu.applied y hy
        exact ⟨z, mem_cons_of_mem _ hz, heq⟩
      here := fun G hG heq => absurd heq (hfresh (hu.usedArmed G hG))
      unarmed := fun y hy hperiod => (mem_cons.mp hy).elim
        (fun h hG => hfresh (hu.usedArmed _ hG) (by rw [h]))
        fun h => hu.unarmed y h hperiod
      rest := nofun
      terminal := fun y hy hy' => by
        rcases mem_cons.mp hy with rfl | hy
        · obtain ⟨hperiod, -, hdeleted⟩ := h.terminal hy'
          exact ⟨hdeleted, rfl, hperiod⟩
        · exact absurd ⟨y, hy, hy'⟩ (h.last hfew)
      misplaced := hu.misplaced
      crossed := hu.crossed }

theorem Promise.publish (hi : Core s) {x : Config}
    (h : MayPublish t x terminal s) : Promise t s (State.publish t x terminal s) where
  first := rfl
  grows := Nat.le_succ _
  terminal := fun hfew hterminal => absurd hterminal (h.last hfew)
  announce := fun _ => .inr rfl
  armedFor := fun _ h => h
  owners := fun u hu => by
    simp only [State.publish, Ghost.onSchedules, Schedules.publish] at hu
    split at hu
    · exact .inr hu
    · exact mem_cons.mp hu
  owned := fun u _ h => ⟨by
    simp only [State.publish, Ghost.onSchedules, Schedules.publish, hi.owner_of_owned h, if_true]
    exact h, rfl, fun _ => rfl⟩
  deleting := fun u hu hdeleting => ⟨by
    simp only [State.publish, Ghost.onSchedules, Schedules.publish]
    rw [if_neg fun hx => hu (Option.some.inj (hdeleting.symm.trans (h.terminal hx).2.1))]
    exact hdeleting, rfl⟩

/-- The state after a tick of the word's generation. -/
def State.tick (t : τ) (low : ℕ) (s : State κ τ) : State κ τ :=
  ⟨{ s.mem with control := { s.mem.control with low := low, owner := true } },
    s.ghost.onSchedules (.tick t s.mem.control.owner s.mem.control.generation)⟩

theorem Core.tick (hi : Core s) {low : ℕ} : Core (State.tick t low s) := by
  obtain ⟨u, hu⟩ := hi.owners_set (t := t)
  exact
    { hi with
      owners := .inl ⟨rfl, u, hu⟩
      rest := nofun
      waiting := fun h => by
        obtain ⟨hunapplied, x, hx⟩ := hi.waiting h
        exact ⟨hunapplied, x, { hx with }⟩
      ticks := fun G hG => (mem_cons.mp hG).elim id (hi.ticks G) }

/-- A word whose generation was armed is no configuration. -/
theorem Unique.applied_of_armed (hu : Unique s)
    (harmed : s.mem.control.generation ∈ s.ghost.schedules.armedFor) :
    s.ghost.schedules.unapplied = false := by
  rw [← Bool.not_eq_true]
  exact fun h => (hu.pending h).notArmed harmed

theorem Unique.tick (hu : Unique s) {low : ℕ}
    (harmed : s.mem.control.generation ∈ s.ghost.schedules.armedFor) :
    Unique (State.tick t low s) := by
  have happlied := hu.applied_of_armed harmed
  exact
    { hu with
      pending := fun h => absurd (happlied.symm.trans h) Bool.false_ne_true
      rest := nofun
      misplaced := by
        simp only [State.tick, Ghost.onSchedules, Schedules.tick, hu.misplaced, happlied]
        rfl
      crossed := by
        simp [State.tick, Ghost.onSchedules, Schedules.tick, hu.crossed, hu.here _ harmed rfl] }

theorem Promise.tick (hi : Core s) {low : ℕ} : Promise t s (State.tick t low s) where
  first := rfl
  grows := le_rfl
  terminal := fun _ _ => rfl
  announce := .inl
  armedFor := fun _ h => h
  owners := fun u hu => by
    simp only [State.tick, Ghost.onSchedules, Schedules.tick] at hu
    split at hu
    · exact .inr hu
    · exact mem_cons.mp hu
  owned := fun u _ h => ⟨by
    simp only [State.tick, Ghost.onSchedules, Schedules.tick, hi.owner_of_owned h, if_true]
    exact h, rfl, fun h => h⟩
  deleting := fun u _ h => ⟨h, rfl⟩

/-! ### Steps of the owner -/

theorem Unique.applied_of_eq (hu : Unique s)
    (h : s.mem.control.generation = s.ghost.schedules.appliedGeneration) :
    s.ghost.schedules.unapplied = false := by
  rw [← Bool.not_eq_true]
  exact fun h' => (hu.pending h').notApplied h

/-- The state after the owner has applied the configuration in the word. -/
def State.apply (s : State κ τ) : State κ τ :=
  ⟨{ s.mem with control := ⟨0, 0, s.mem.control.generation, true⟩ },
    s.ghost.onSchedules (.apply ⟨s.mem.control.generation, s.mem.control.low,
      s.mem.control.counter⟩)⟩

theorem Core.apply (hi : Core s) (howns : s.ghost.schedules.owners = [t])
    (hgeneration : s.mem.control.generation ≠ s.ghost.schedules.appliedGeneration)
    (hbackend : s.mem.backend = none) : Core (State.apply s) := by
  obtain ⟨-, x, hx⟩ := hi.waiting hgeneration
  have hnumber : (s.ghost.schedules.published.head?.map Publication.number).getD 0 = x.number := by
    rw [hx.head]
    rfl
  exact
    { hi with
      owners := .inl ⟨rfl, t, howns⟩
      rest := nofun
      waiting := fun h => absurd rfl h
      applied := nodup_cons.mpr ⟨fun h => by
        obtain ⟨y, hy, heq⟩ := mem_map.mp h
        exact hx.fresh y hy (heq.trans hnumber), hi.applied⟩
      source := fun y hy => (mem_cons.mp hy).elim
        (fun h => ⟨x, mem_of_mem_head? hx.head, by
          rw [h]
          exact ⟨hnumber.symm, hx.generation, hx.counter⟩⟩) (hi.source y)
      sound :=
        { armed := fun h => absurd hbackend h
          backend := hi.sound.backend
          head := fun y hy => by
            cases hy
            exact ⟨rfl, le_rfl, fun _ => Nat.zero_le _, fun _ _ => hbackend⟩
          bound := fun y hy => (mem_cons.mp hy).elim
            (fun h _ => by rw [h]; exact Nat.zero_le _) (hi.sound.bound y)
          exact := fun y hy => (mem_cons.mp hy).elim
            (fun h hy' => by rw [h] at hy'; exact absurd hy' nofun) (hi.sound.exact y) } }

theorem Unique.apply (hu : Unique s) (hunapplied : s.ghost.schedules.unapplied = true) :
    Unique (State.apply s) := by
  obtain ⟨number, terminal, hhead⟩ := (hu.pending hunapplied).head
  have hmem := mem_of_mem_head? hhead
  exact
    { hu with
      pending := nofun
      active := fun _ => by
        show some _ = s.ghost.schedules.published.head?.map (·.config)
        rw [hhead]
        rfl
      usedApplied := hu.usedPublished _ hmem
      applied := fun y hy => (mem_cons.mp hy).elim
        (fun h => ⟨_, hmem, by rw [h]⟩) (hu.applied y)
      rest := nofun }

/-- The state after an arm call for `a`. -/
def State.arm (a : Config) (ok : Bool) (s : State κ τ) : State κ τ :=
  ⟨{ s.mem with
      timer := some ⟨a.counter, ok, a.period⟩
      backend := if ok then some (a.generation, a.period) else none },
    s.ghost.onSchedules (.arm a.generation ok)⟩

variable {x : Application}

theorem Core.arm (hi : Core s) (howns : s.ghost.schedules.owners = [t]) {ok : Bool}
    (hhead : s.ghost.schedules.applied.head? = some x) (hspent : s.ghost.schedules.spent = 0)
    (hperiod : x.config.period ≠ 0) : Core (State.arm x.config ok s) := by
  obtain ⟨hgeneration, hcounted, -, -⟩ := hi.sound.head x hhead
  have howner := hi.owner_of_owned howns
  exact
    { hi with
      rest := fun h => absurd (howner.symm.trans h) nofun
      waiting := fun h => by
        obtain ⟨hunapplied, x, hx⟩ := hi.waiting h
        exact ⟨hunapplied, x, { hx with }⟩
      sound :=
        { armed := fun h => by
            cases ok with
            | false => exact absurd rfl h
            | true =>
              exact ⟨x, ⟨x.config.counter, true, x.config.period⟩,
                { head := hhead
                  timer := rfl
                  armed := rfl
                  backend := rfl
                  period := hperiod
                  succeeded := rfl
                  unlimited := id
                  limited := fun _ => by
                    show s.ghost.schedules.spent + x.config.counter = x.config.counter
                    rw [hspent, Nat.zero_add] }⟩
          backend := fun state hstate harmed => by
            cases hstate
            cases ok with
            | false => exact absurd harmed nofun
            | true => exact nofun
          head := fun y hy => by
            cases hhead.symm.trans hy
            refine ⟨hgeneration, hcounted, fun _ => hspent.le.trans (Nat.zero_le _), fun hpos h => ?_⟩
            have hcounted0 : x.counted = 0 := Nat.le_zero.mp (hcounted.trans (Nat.le_of_eq hspent))
            exact absurd (hcounted0.symm.trans h) (Nat.ne_of_lt hpos)
          bound := hi.sound.bound
          exact := hi.sound.exact } }

theorem Unique.arm (hi : Core s) (hu : Unique s) (howns : s.ghost.schedules.owners = [t])
    {ok : Bool} (hhead : s.ghost.schedules.applied.head? = some x)
    (hperiod : x.config.period ≠ 0) : Unique (State.arm x.config ok s) := by
  have hgeneration := (hi.sound.head x hhead).1
  have howner := hi.owner_of_owned howns
  obtain ⟨y, hy, hconfig⟩ := hu.applied x (mem_of_mem_head? hhead)
  have hused : Used s.ghost.schedules x.config.generation := hconfig ▸ hu.usedPublished y hy
  have harmed : ∀ G ∈ (State.arm x.config ok s).ghost.schedules.armedFor,
      G = x.config.generation ∨ G ∈ s.ghost.schedules.armedFor := by
    intro G hG
    simp only [State.arm, Ghost.onSchedules, Schedules.arm] at hG
    split at hG
    · exact mem_cons.mp hG
    · exact .inr hG
  exact
    { hu with
      pending := fun h =>
        { hu.pending h with
          notArmed := fun hG => (harmed _ hG).elim
            (fun heq => (hu.pending h).notApplied (heq.trans hgeneration))
            (hu.pending h).notArmed }
      usedArmed := fun G hG => (harmed G hG).elim (fun heq => heq ▸ hused) (hu.usedArmed G)
      here := fun G hG heq => by
        simp only [State.arm, Ghost.onSchedules, Schedules.arm] at hG ⊢
        cases ok with
        | false => exact hu.here G hG heq
        | true =>
          exact (mem_cons.mp hG).elim (fun h => h ▸ mem_cons_self)
            fun h => mem_cons_of_mem _ (hu.here G h heq)
      unarmed := fun z hz hz0 hG => (harmed _ hG).elim
        (fun heq => by
          have hzy := inj_on_of_nodup_map hu.distinct hz hy (by rw [heq, hconfig])
          exact hperiod (by rw [← hconfig, ← hzy, hz0]))
        (hu.unarmed z hz hz0)
      rest := fun h => absurd (howner.symm.trans h) nofun }

/-- What the owner changes of the timer leaves the rest of the invariant. -/
theorem Core.of_holding {s' : State κ τ} (hi : Core s) (howns : s.ghost.schedules.owners = [t])
    (hcontrol : s'.mem.control = s.mem.control) (htag : s'.mem.tag = s.mem.tag)
    (hschedules : ∃ spent, s'.ghost.schedules = { s.ghost.schedules with spent := spent })
    (hsound : (holding s').Sound) : Core s' := by
  have howner := hi.owner_of_owned howns
  obtain ⟨mem, ghost⟩ := s'
  obtain ⟨spent, hschedules⟩ := hschedules
  dsimp only at hcontrol htag hschedules
  exact
    { hi with
      first := by rw [hschedules]; exact hi.first
      generation := by rw [hcontrol, hschedules]; exact hi.generation
      owners := by rw [hcontrol, hschedules]; exact hi.owners
      rest := fun h => by
        rw [hcontrol] at h
        exact absurd (howner.symm.trans h) nofun
      waiting := by
        rw [hcontrol, hschedules]
        intro h
        obtain ⟨hunapplied, x, hx⟩ := hi.waiting h
        exact ⟨hunapplied, x, { hx with }⟩
      ticks := by rw [hcontrol, hschedules]; exact hi.ticks
      numbers := by rw [hschedules]; exact hi.numbers
      published := by rw [hschedules]; exact hi.published
      applied := by rw [hschedules]; exact hi.applied
      source := by rw [hschedules]; exact hi.source
      sound := hsound
      drained := by rw [hschedules]; exact hi.drained
      deleting := by rw [hschedules]; exact hi.deleting
      alive := by rw [hschedules, htag]; exact hi.alive }

theorem Unique.of_holding {s' : State κ τ} (hi : Core s) (hu : Unique s)
    (howns : s.ghost.schedules.owners = [t])
    (hcontrol : s'.mem.control = s.mem.control) (htag : s'.mem.tag = s.mem.tag)
    (hschedules : ∃ spent, s'.ghost.schedules = { s.ghost.schedules with spent := spent }) :
    Unique s' := by
  have howner := hi.owner_of_owned howns
  obtain ⟨mem, ghost⟩ := s'
  obtain ⟨spent, hschedules⟩ := hschedules
  dsimp only at hcontrol htag hschedules
  exact
    { pending := by
        rw [hcontrol, hschedules]
        exact fun h => { hu.pending h with }
      active := by rw [hschedules]; exact hu.active
      usedApplied := by rw [hschedules]; exact hu.usedApplied
      usedArmed := by rw [hschedules]; exact hu.usedArmed
      usedPublished := by rw [hschedules]; exact hu.usedPublished
      distinct := by rw [hschedules]; exact hu.distinct
      applied := by rw [hschedules]; exact hu.applied
      here := by rw [hcontrol, hschedules]; exact hu.here
      unarmed := by rw [hschedules]; exact hu.unarmed
      rest := fun h => by
        rw [hcontrol] at h
        exact absurd (howner.symm.trans h) nofun
      terminal := by rw [hschedules, htag]; exact hu.terminal
      misplaced := by rw [hschedules]; exact hu.misplaced
      crossed := by rw [hschedules]; exact hu.crossed }

/-- The state after `eventTimerStop`. -/
def State.stop (s : State κ τ) : State κ τ :=
  ⟨match s.mem.timer with
    | none => s.mem
    | some state =>
      if state.armed then
        { s.mem with timer := some { state with armed := false }, backend := none }
      else s.mem, s.ghost⟩

/-- Stopping changes nothing, or takes an armed timer out of force. -/
theorem Core.stop_cases (hi : Core s) : State.stop s = s ∧ s.mem.backend = none ∨
    ∃ state, s.mem.timer = some state ∧ State.stop s =
      ⟨{ s.mem with timer := some { state with armed := false }, backend := none }, s.ghost⟩ := by
  have hnone : (∀ state, s.mem.timer = some state → state.armed = false) →
      s.mem.backend = none := by
    intro h
    by_contra hne
    obtain ⟨x, state, harmed⟩ := hi.sound.armed hne
    exact absurd (harmed.armed.symm.trans (h state harmed.timer)) nofun
  unfold State.stop
  split
  · next htimer => exact .inl ⟨rfl, hnone fun state h => absurd (htimer.symm.trans h) nofun⟩
  · next state htimer =>
    split
    · exact .inr ⟨state, htimer, rfl⟩
    · next harmed =>
      refine .inl ⟨rfl, hnone fun state' h => ?_⟩
      cases htimer.symm.trans h
      exact Bool.not_eq_true _ ▸ harmed

theorem Core.stop_backend (hi : Core s) : (State.stop s).mem.backend = none := by
  rcases hi.stop_cases with ⟨heq, hnone⟩ | ⟨state, htimer, heq⟩
  · rw [heq]
    exact hnone
  · rw [heq]

theorem Core.stop (hi : Core s) (howns : s.ghost.schedules.owners = [t]) :
    Core (State.stop s) := by
  rcases hi.stop_cases with ⟨heq, -⟩ | ⟨state, htimer, heq⟩
  · rw [heq]
    exact hi
  · rw [heq]
    refine hi.of_holding howns rfl rfl ⟨_, rfl⟩ ?_
    exact
      { armed := fun h => absurd rfl h
        backend := fun state' h harmed => by
          cases h
          exact absurd harmed nofun
        head := fun x hx => by
          obtain ⟨hgeneration, hcounted, hspent, -⟩ := hi.sound.head x hx
          exact ⟨hgeneration, hcounted, hspent, fun _ _ => rfl⟩
        bound := hi.sound.bound
        exact := hi.sound.exact }

theorem Unique.stop (hi : Core s) (hu : Unique s) (howns : s.ghost.schedules.owners = [t]) :
    Unique (State.stop s) := by
  rcases hi.stop_cases with ⟨heq, -⟩ | ⟨state, htimer, heq⟩
  · rw [heq]
    exact hu
  · rw [heq]
    exact .of_holding hi hu howns rfl rfl ⟨_, rfl⟩

/-- The state after the owner has taken the ticks out of the word. -/
def State.drop (record : List (ℕ × ℕ)) (s : State κ τ) : State κ τ :=
  ⟨{ s.mem with control := { s.mem.control with low := 0 } }, s.ghost.onSchedules fun g =>
      { g with pendingFrom := [], drainedFrom := record ++ g.drainedFrom }⟩

theorem Core.drop (hi : Core s) {record : List (ℕ × ℕ)} (hrecord : ∀ p ∈ record, p.1 = p.2) :
    Core (State.drop record s) :=
  { hi with
    waiting := fun h => by
      obtain ⟨hunapplied, x, hx⟩ := hi.waiting h
      exact ⟨hunapplied, x, { hx with }⟩
    ticks := nofun
    drained := fun p hp => (mem_append.mp hp).elim (hrecord p) (hi.drained p) }

theorem Unique.drop (hu : Unique s)
    (hgeneration : s.mem.control.generation = s.ghost.schedules.appliedGeneration)
    {record : List (ℕ × ℕ)} : Unique (State.drop record s) := by
  have happlied := hu.applied_of_eq hgeneration
  exact { hu with pending := fun h => absurd (happlied.symm.trans h) nofun }

/-- The state after `count` ticks were taken off the counter of an armed timer. -/
def State.consume (state : TimerState) (count : ℕ) (s : State κ τ) : State κ τ :=
  ⟨{ s.mem with timer := some { state with remaining := state.remaining - count } },
    s.ghost.onSchedules fun g => { g with spent := g.spent + count }⟩

/-- An armed timer with all ticks counted has some left. -/
theorem Core.armed (hi : Core s) (hbalanced : (holding s).Balanced) {state : TimerState}
    (htimer : s.mem.timer = some state) (harmed : state.armed = true) :
    ∃ x, (holding s).Armed x state ∧ (0 < x.config.counter → state.remaining ≠ 0) := by
  have hbackend : s.mem.backend ≠ none := hi.sound.backend state htimer harmed
  obtain ⟨x, state', h⟩ := hi.sound.armed hbackend
  cases htimer.symm.trans h.timer
  refine ⟨x, h, fun hpos h0 => ?_⟩
  have hlimited := h.limited hpos
  rw [h0, Nat.add_zero] at hlimited
  obtain ⟨-, -, -, hstopped⟩ := hi.sound.head x h.head
  exact hbackend (hstopped hpos ((hbalanced x h.head).trans hlimited))

theorem Core.consume (hi : Core s) (howns : s.ghost.schedules.owners = [t])
    (hbalanced : (holding s).Balanced) {state : TimerState} {count : ℕ}
    (htimer : s.mem.timer = some state) (harmed : state.armed = true)
    (hcount : state.remaining ≠ 0 → count ≤ state.remaining) :
    Core (State.consume state count s) := by
  obtain ⟨x, h, hleft⟩ := hi.armed hbalanced htimer harmed
  obtain ⟨hgeneration, hcounted, hspent, hstopped⟩ := hi.sound.head x h.head
  have hsame : (holding s).spent = s.ghost.schedules.spent := rfl
  refine hi.of_holding howns rfl rfl ⟨_, rfl⟩ ?_
  exact
    { armed := fun _ => ⟨x, _, { h with
          timer := rfl
          armed := harmed
          unlimited := fun h0 => by
            show state.remaining - count = 0
            rw [h.unlimited h0, Nat.zero_sub]
          limited := fun hpos => by
            have hlimited := h.limited hpos
            have hle := hcount (hleft hpos)
            show s.ghost.schedules.spent + count + (state.remaining - count) = x.config.counter
            omega }⟩
      backend := fun _ _ _ => hi.sound.backend state htimer harmed
      head := fun y hy => by
        cases h.head.symm.trans hy
        refine ⟨hgeneration, hcounted.trans (Nat.le_add_right _ _), fun hpos => ?_, hstopped⟩
        have hlimited := h.limited hpos
        have hle := hcount (hleft hpos)
        show s.ghost.schedules.spent + count ≤ x.config.counter
        omega
      bound := hi.sound.bound
      exact := hi.sound.exact }

/-- The state after `count` ticks were added to a delivery. -/
def State.count (count : ℕ) (exhausted : Bool) (s : State κ τ) : State κ τ :=
  ⟨s.mem, s.ghost.onSchedules (.count count exhausted)⟩

theorem Core.count (hi : Core s) (howns : s.ghost.schedules.owners = [t])
    {count : ℕ} {exhausted : Bool} (hhead : s.ghost.schedules.applied.head? = some x)
    (hcount : x.counted + count = s.ghost.schedules.spent)
    (hstop : 0 < x.config.counter → s.ghost.schedules.spent = x.config.counter →
      s.mem.backend = none) (hexhausted : exhausted = true →
      0 < x.config.counter ∧ s.ghost.schedules.spent = x.config.counter) :
    Core (State.count count exhausted s) := by
  have howner := hi.owner_of_owned howns
  obtain ⟨rest, happlied⟩ : ∃ rest, s.ghost.schedules.applied = x :: rest := by
    cases h : s.ghost.schedules.applied with
    | nil => rw [h] at hhead; exact absurd hhead nofun
    | cons y rest => rw [h] at hhead; cases hhead; exact ⟨rest, rfl⟩
  have happlied' : (State.count count exhausted s).ghost.schedules.applied =
      ⟨x.number, x.config, x.counted + count, x.exhausted || exhausted⟩ :: rest := by
    show s.ghost.schedules.applied.modifyHead _ = _
    rw [happlied]
    rfl
  obtain ⟨hgeneration, -, hspent, -⟩ := hi.sound.head x hhead
  have hrest : ∀ y ∈ rest, y ∈ s.ghost.schedules.applied := fun y hy =>
    happlied ▸ mem_cons_of_mem _ hy
  have hmem : x ∈ s.ghost.schedules.applied := happlied ▸ mem_cons_self
  exact
    { hi with
      rest := fun h => absurd (howner.symm.trans h) nofun
      waiting := fun h => by
        obtain ⟨hunapplied, z, hz⟩ := hi.waiting h
        refine ⟨hunapplied, z, { hz with fresh := fun y hy => ?_ }⟩
        rw [happlied'] at hy
        exact (mem_cons.mp hy).elim (fun h => h ▸ hz.fresh x hmem)
          fun h => hz.fresh y (hrest y h)
      applied := by
        have happlied0 := hi.applied
        rw [happlied] at happlied0
        rw [happlied']
        exact happlied0
      source := fun y hy => by
        rw [happlied'] at hy
        exact (mem_cons.mp hy).elim (fun h => h ▸ hi.source x hmem)
          fun h => hi.source y (hrest y h)
      sound :=
        { armed := fun h => by
            obtain ⟨y, state, hy⟩ := hi.sound.armed h
            cases hhead.symm.trans hy.head
            refine ⟨⟨x.number, x.config, x.counted + count, x.exhausted || exhausted⟩, state,
              { hy with head := ?_ }⟩
            show (State.count count exhausted s).ghost.schedules.applied.head? = _
            rw [happlied']
            rfl
          backend := hi.sound.backend
          head := fun y hy => by
            have hy : (State.count count exhausted s).ghost.schedules.applied.head? = some y := hy
            rw [happlied'] at hy
            cases hy
            exact ⟨hgeneration, hcount.le, hspent, fun hpos h => hstop hpos (hcount.symm.trans h)⟩
          bound := fun y hy hpos => by
            have hy : y ∈ (State.count count exhausted s).ghost.schedules.applied := hy
            rw [happlied'] at hy
            rcases mem_cons.mp hy with rfl | hy
            · exact hcount.le.trans (hspent hpos)
            · exact hi.sound.bound y (hrest y hy) hpos
          exact := fun y hy hy' => by
            have hy : y ∈ (State.count count exhausted s).ghost.schedules.applied := hy
            rw [happlied'] at hy
            rcases mem_cons.mp hy with rfl | hy
            · rcases Bool.or_eq_true_iff.mp hy' with hbefore | hnow
              · -- it was exhausted before, so there was nothing left to count
                obtain ⟨hpos, hfull⟩ := hi.sound.exact x hmem hbefore
                refine ⟨hpos, le_antisymm (hcount.le.trans (hspent hpos)) ?_⟩
                exact hfull.ge.trans (Nat.le_add_right _ _)
              · exact ⟨(hexhausted hnow).1, hcount.trans (hexhausted hnow).2⟩
            · exact hi.sound.exact y (hrest y hy) hy' } }

theorem Unique.count (hi : Core s) (hu : Unique s) (howns : s.ghost.schedules.owners = [t])
    {count : ℕ} {exhausted : Bool} : Unique (State.count count exhausted s) := by
  have howner := hi.owner_of_owned howns
  have hconfig : ∀ l : List Application, ((l.modifyHead fun x =>
      { x with counted := x.counted + count, exhausted := x.exhausted || exhausted }).map
      (·.config)) = l.map (·.config) := by
    rintro (_ | ⟨x, l⟩) <;> rfl
  have hconfigs := hconfig s.ghost.schedules.applied
  exact
    { hu with
      pending := fun h => { hu.pending h with }
      active := fun h => by
        rw [← head?_map]
        show (List.map _ (s.ghost.schedules.applied.modifyHead _)).head? = _
        rw [hconfigs, head?_map]
        exact hu.active h
      applied := fun y hy => by
        have hy' : y.config ∈ s.ghost.schedules.applied.map (·.config) :=
          hconfigs ▸ mem_map_of_mem hy
        obtain ⟨z, hz, heq⟩ := mem_map.mp hy'
        exact heq ▸ hu.applied z hz
      rest := fun h => absurd (howner.symm.trans h) nofun }

/-- The state after the owner has cleared the bit. -/
def State.release (t : τ) [DecidableEq τ] (s : State κ τ) : State κ τ :=
  ⟨{ s.mem with control := { s.mem.control with owner := false } },
    s.ghost.onSchedules (.release t)⟩

theorem Core.release [DecidableEq τ] (hi : Core s) (howns : s.ghost.schedules.owners = [t])
    (hgeneration : s.mem.control.generation = s.ghost.schedules.appliedGeneration)
    (hbalanced : (holding s).Balanced) : Core (State.release t s) :=
  { hi with
    owners := .inr ⟨rfl, by simp [State.release, Ghost.onSchedules, Schedules.release, howns]⟩
    rest := fun _ => ⟨hgeneration, hbalanced⟩
    waiting := fun h => absurd hgeneration h }

theorem Unique.release [DecidableEq τ] (hu : Unique s)
    (hgeneration : s.mem.control.generation = s.ghost.schedules.appliedGeneration)
    (hsettled : (holding s).Settled) : Unique (State.release t s) := by
  have happlied := hu.applied_of_eq hgeneration
  exact
    { hu with
      pending := fun h => absurd (happlied.symm.trans h) nofun
      rest := fun _ => hsettled }

end Steps

end Ownership

end UserEvent

end Asyncio

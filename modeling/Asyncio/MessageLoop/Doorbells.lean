import Asyncio.Concurrent.Outline
import Asyncio.MessageLoop.Code

/-!
# No doorbell is lost

Two laws say who answers for what is pending. While a completion is published, the doorbell has rung,
or some thread is going to empty the queue before it sleeps, or some thread is going to ring. And while
a request to quit stands, the doorbell has rung, or is going to be rung for it, or some thread is going
to read the request before it sleeps, or no thread is left. The thread that empties the doorbell is one
that will look at both before it sleeps again.

## Main definitions

* `MessageLoop.Inv`, `MessageLoop.Guar` — the invariant, and what each thread guarantees
* `MessageLoop.At` — where a thread is, as an assertion

## Main results

* `MessageLoop.doorbells_never_lost` — slots, completions and the request to quit, in every state of
  every run
-/

namespace Asyncio

namespace MessageLoop

set_option linter.unusedSectionVars false

open Concurrent Function List

variable {τ : Type}

/-- `t` has a slot of the loop. -/
def Mem.Registered (m : Mem τ) (t : τ) : Prop := (m.threadLocal t).loopThreadSlotOwned = true

/-- The slot of `t`. -/
def Mem.slot (m : Mem τ) (t : τ) : ℕ := (m.threadLocal t).messageLoopThreadId

/-! ### Invariant and guarantee -/

/-- The thread will ring for completions or take them itself. -/
def View.Answers (v : View) : Prop := v.rings = true ∨ v.drains = true

/-- The thread will ring for the request to quit or read it itself. -/
def View.Minds (v : View) : Prop := v.wakes = true ∨ v.asks = true

/-- What holds of a thread where it is. -/
structure View.Fits (v : View) (registered counted : Prop) : Prop where
  blocked : v.blocked = true → counted
  rings : v.rings = true → v.enqueuing = true
  drains : v.drains = true → registered ∧ v.blocked = false
  asks : v.asks = true → registered ∧ v.blocked = false

/-- The slots and the counter; `limit` is `loopThreadLimit`. -/
structure Registry (limit : ℕ) (m : Mem τ) (counted : List τ) : Prop where
  slot : ∀ t, m.Registered t → m.loopThreadSlots (m.slot t) = true ∧ m.slot t < limit
  distinct : ∀ t u, m.Registered t → m.Registered u → m.slot t = m.slot u → t = u
  registered : ∀ t ∈ counted, m.Registered t
  nodup : counted.Nodup
  counter : m.messageLoopThreadCounter = counted.length

/-- The invariant. -/
structure Inv (limit : ℕ) (s : State τ) : Prop where
  registry : Registry limit s.mem s.counted
  fits : ∀ t, (s.view t).Fits (s.mem.Registered t) (t ∈ s.counted)
  /-- Who claimed a cell will ring, or will empty the queue. -/
  claims : ∀ c ∈ s.mem.globalQueue, c.published = false →
    ∃ t, (s.view t).claimed = some c.ticket ∧ (s.view t).Answers
  /-- The law of completions. -/
  posted : (∃ c ∈ s.mem.globalQueue, c.published = true) →
    s.mem.eventFd = true ∨ ∃ t, (s.view t).Answers
  /-- The law of quitting. -/
  quitting : s.mem.quitRequested = true →
    s.mem.eventFd = true ∨ (∃ t, (s.view t).Minds) ∨ s.counted = []

/-- A thread moves itself only. -/
structure Guar (t : τ) (s s' : State τ) : Prop where
  view : ∀ u, u ≠ t → s'.view u = s.view u
  threadLocal : ∀ u, u ≠ t → s'.mem.threadLocal u = s.mem.threadLocal u
  counted : ∀ u, u ≠ t → (u ∈ s'.counted ↔ u ∈ s.counted)

/-- Thread `t` is at `v`, and whether it has a slot and is in the counter. -/
structure At (t : τ) (v : View) (registered counted : Bool) (s : State τ) : Prop where
  view : s.view t = v
  registered : (s.mem.threadLocal t).loopThreadSlotOwned = registered
  counted : t ∈ s.counted ↔ counted = true

theorem Guar.refl (t : τ) (s : State τ) : Guar t s s := ⟨fun _ _ => rfl, fun _ _ => rfl, fun _ _ => .rfl⟩

variable {v : View}

theorem stable_at {limit : ℕ} {t : τ} {registered counted : Bool} :
    Stable (poolTerms (Inv limit) Guar t) (At t v registered counted) := by
  rintro s s' - - ⟨u, hu, hg⟩ hs
  exact ⟨(hg.view t hu.symm).trans hs.view, by rw [hg.threadLocal t hu.symm]; exact hs.registered,
    (hg.counted t hu.symm).trans hs.counted⟩

/-! ### Steps -/

section Steps

variable {limit : ℕ} {t : τ} {s s' : State τ}

variable [DecidableEq τ]

/-- Thread `t` goes to `v`; the memory is `m`, and these threads are in the counter. -/
def State.go (s : State τ) (t : τ) (v : View) (m : Mem τ) (counted : List τ) : State τ :=
  ⟨m, update s.view t v, counted⟩

@[simp] theorem go_view (s : State τ) (v : View) (m : Mem τ) (counted : List τ) :
    (s.go t v m counted).view t = v :=
  update_self _ _ _

theorem go_view_of_ne {u : τ} (hu : u ≠ t) (v : View) (m : Mem τ) (counted : List τ) :
    (s.go t v m counted).view u = s.view u :=
  update_of_ne hu _ _

variable {m : Mem τ}

/-- Who answers after `t` went to `v`: `t` there, or another. -/
theorem exists_go {p : View → Prop} {counted : List τ}
    (h : p v ∨ ∃ u, u ≠ t ∧ p (s.view u)) : ∃ u, p ((s.go t v m counted).view u) := by
  rcases h with hv | ⟨u, hu, hp⟩
  · exact ⟨t, by rwa [go_view]⟩
  · exact ⟨u, by rwa [go_view_of_ne hu]⟩

/-- Who answered before `t` left `v` for `w`: if it was `t`, it still does there. -/
theorem exists_split {p : View → Prop} {v w : View} (h : ∃ u, p (s.view u)) (hv : s.view t = v)
    (hw : p v → p w) : p w ∨ ∃ u, u ≠ t ∧ p (s.view u) := by
  obtain ⟨u, hu⟩ := h
  by_cases heq : u = t
  · subst heq
    exact .inl (hw (hv ▸ hu))
  · exact .inr ⟨u, heq, hu⟩

/-- **One step.** What a thread has to see to when it moves. -/
theorem Inv.go (hi : Inv limit s) {counted : List τ}
    (hg : Guar t s (s.go t v m counted)) (hregistry : Registry limit m counted)
    (hfits : v.Fits (m.Registered t) (t ∈ counted)) (hclaims : ∀ c ∈ m.globalQueue, c.published = false →
      (v.claimed = some c.ticket ∧ v.Answers) ∨
      ∃ u, u ≠ t ∧ (s.view u).claimed = some c.ticket ∧ (s.view u).Answers)
    (hposted : (∃ c ∈ m.globalQueue, c.published = true) →
      m.eventFd = true ∨ v.Answers ∨ ∃ u, u ≠ t ∧ (s.view u).Answers)
    (hquitting : m.quitRequested = true →
      m.eventFd = true ∨ (v.Minds ∨ ∃ u, u ≠ t ∧ (s.view u).Minds) ∨ counted = []) :
    Inv limit (s.go t v m counted) where
  registry := hregistry
  fits := fun u => by
    by_cases hu : u = t
    · subst hu
      rw [go_view]
      exact hfits
    · have hregistered : (s.go t v m counted).mem.Registered u ↔ s.mem.Registered u := by
        rw [Mem.Registered, Mem.Registered, hg.threadLocal u hu]
      rw [hregistered, hg.counted u hu, go_view_of_ne hu]
      exact hi.fits u
  claims := fun c hc hp =>
    exists_go (p := fun v => v.claimed = some c.ticket ∧ v.Answers) (hclaims c hc hp)
  posted := fun h => (hposted h).imp id exists_go
  quitting := fun h => (hquitting h).imp id fun h => h.imp exists_go id

/-- Thread `t` goes to `v`, and the memory is `m`. -/
abbrev State.place (s : State τ) (t : τ) (v : View) (m : Mem τ) : State τ := s.go t v m s.counted

theorem guar_place (h : ∀ u, u ≠ t → m.threadLocal u = s.mem.threadLocal u): Guar t s (s.place t v m) :=
  ⟨fun _ hu => update_of_ne hu _ _, h, fun _ _ => .rfl⟩

/-- The steps that have nothing to do with the registration of threads. -/
theorem Inv.place (hi : Inv limit s) (hslots : m.loopThreadSlots = s.mem.loopThreadSlots)
    (hlocal : m.threadLocal = s.mem.threadLocal)
    (hcounter : m.messageLoopThreadCounter = s.mem.messageLoopThreadCounter)
    (hfits : v.Fits (s.mem.Registered t) (t ∈ s.counted))
    (hclaims : ∀ c ∈ m.globalQueue, c.published = false →
      (v.claimed = some c.ticket ∧ v.Answers) ∨
      ∃ u, u ≠ t ∧ (s.view u).claimed = some c.ticket ∧ (s.view u).Answers)
    (hposted : (∃ c ∈ m.globalQueue, c.published = true) →
      m.eventFd = true ∨ v.Answers ∨ ∃ u, u ≠ t ∧ (s.view u).Answers)
    (hquitting : m.quitRequested = true →
      m.eventFd = true ∨ (v.Minds ∨ ∃ u, u ≠ t ∧ (s.view u).Minds) ∨ s.counted = []) :
    Inv limit (s.place t v m) := by
  have hregistered : m.Registered = s.mem.Registered := by
    funext u
    rw [Mem.Registered, Mem.Registered, hlocal]
  have hslot : m.slot = s.mem.slot := by
    funext u
    rw [Mem.slot, Mem.slot, hlocal]
  refine hi.go (guar_place fun u _ => by rw [hlocal]) ?_ (hregistered ▸ hfits) hclaims hposted
    hquitting
  exact
    { slot := by rw [hregistered, hslot, hslots]; exact hi.registry.slot
      distinct := by rw [hregistered, hslot]; exact hi.registry.distinct
      registered := by rw [hregistered]; exact hi.registry.registered
      nodup := hi.registry.nodup
      counter := hcounter.trans hi.registry.counter }

end Steps

/-! ### Outlines: who rings -/

/-- An outline for thread `t`. -/
def Spec {β : Type} (limit : ℕ) (t : τ) (P : State τ → Prop) (p : Prog (State τ) β)
    (Q : β → State τ → Prop) : Prop :=
  Outline (poolTerms (Inv limit) Guar t) P p Q

section Outlines

variable [DecidableEq τ] {limit : ℕ} {t : τ} {drains asks registered counted : Bool}

theorem Spec.instr {β : Type} {f : Mem τ → β × Mem τ} {note : Mem τ → View → View}
    {w : β → View} {r : Bool} (hlocal : ∀ m u, u ≠ t → (f m).2.threadLocal u = m.threadLocal u)
    (h : ∀ s, Inv limit s → At t v registered counted s → note s.mem v = w (f s.mem).1 ∧
      Inv limit (s.place t (w (f s.mem).1) (f s.mem).2) ∧
      ((f s.mem).2.threadLocal t).loopThreadSlotOwned = r) :
    Spec limit t (At t v registered counted) (instr t f note) fun x => At t (w x) r counted := by
  refine Outline.act stable_at (fun _ => stable_at) fun s x s' heq hi hs => ?_
  cases heq
  obtain ⟨hview, hi', hregistered⟩ := h s hi hs
  rw [← hview, ← hs.view] at hi'
  refine ⟨hi', guar_place (hlocal s.mem), ?_, hregistered, hs.counted⟩
  rw [← hview, ← hs.view]
  exact update_self _ _ _

variable {s : State τ}

theorem At.move_eq (hs : At t v registered counted s) (f : View → View) :
    s.move t f = s.place t (f v) s.mem := by
  rw [State.move, hs.view]
  rfl

theorem At.stay_eq (hs : At t v registered counted s) (m : Mem τ) :
    { s with mem := m } = s.place t v m := by
  rw [State.place, State.go, ← hs.view, update_eq_self]

theorem At.place {v w : View} {m : Mem τ} {r : Bool}
    (hs : At t v registered counted s) (hm : (m.threadLocal t).loopThreadSlotOwned = r) :
    At t w r counted (s.place t w m) :=
  ⟨go_view s w m _, hm, hs.counted⟩

theorem At.fits (hs : At t v registered counted s) (hi : Inv limit s) :
    v.Fits (s.mem.Registered t) (t ∈ s.counted) :=
  hs.view ▸ hi.fits t

/-- A thread that has no cell claimed has nothing to do with those that are. -/
theorem Inv.claims_others (hi : Inv limit s)
    (hs : At t v registered counted s) (hclaimed : v.claimed = none) :
    ∀ c ∈ s.mem.globalQueue, c.published = false →
      ∃ u, u ≠ t ∧ (s.view u).claimed = some c.ticket ∧ (s.view u).Answers := by
  intro c hc hp
  obtain ⟨u, hu⟩ := hi.claims c hc hp
  refine ⟨u, fun heq => ?_, hu⟩
  rw [heq, hs.view, hclaimed] at hu
  exact absurd hu.1 nofun

/-- The doorbell answers for everything. -/
theorem Inv.ring {v w : View} (hi : Inv limit s) (hs : At t v registered counted s)
    (hclaimed : v.claimed = none) (hfits : w.Fits (s.mem.Registered t) (t ∈ s.counted)) :
    Inv limit (s.place t w { s.mem with eventFd := true }) :=
  hi.place rfl rfl rfl hfits (fun c hc hp => .inr (hi.claims_others hs hclaimed c hc hp))
    (fun _ => .inl rfl) fun _ => .inl rfl

/-- A thread that answers for no less than before. -/
theorem Inv.keep {v w : View} (hi : Inv limit s) (hs : At t v registered counted s)
    (hclaimed : v.claimed = none) (hfits : w.Fits (s.mem.Registered t) (t ∈ s.counted))
    (hanswers : v.Answers → w.Answers) (hminds : v.Minds → w.Minds) :
    Inv limit (s.place t w s.mem) :=
  hi.place rfl rfl rfl hfits (fun c hc hp => .inr (hi.claims_others hs hclaimed c hc hp))
    (fun hp => (hi.posted hp).imp id fun h => exists_split h hs.view hanswers)
    fun hq => (hi.quitting hq).imp id fun h => h.imp (fun h => exists_split h hs.view hminds) id

/-- In `epollEnqueue`. -/
def View.pushing (drains asks : Bool) (claimed : Option ℕ) (rings : Bool) : View :=
  ⟨false, true, claimed, rings, drains, asks, false⟩

/-- Whether a push rings. -/
def needs (limit : ℕ) (registered : Bool) : Bool := !(decide (limit = 1) && registered)

theorem At.needs (hs : At t v registered counted s) :
    enqueueNeedsDoorbell limit t s.mem = needs limit registered := by
  rw [enqueueNeedsDoorbell, MessageLoop.needs, hs.registered]

/-- A thread that has a slot pushes only when it is going to empty the queue. -/
theorem needs_or_drains (h : registered = true → drains = true) :
    needs limit registered = true ∨ drains = true := by
  by_cases hr : registered = true
  · exact .inr (h hr)
  · simp [needs, hr]

theorem outline_concurrentQueuePush (h : registered = true → drains = true) :
    Spec limit t (At t (.idle drains asks) registered counted) (concurrentQueuePush limit t)
      fun _ => At t (.pushing drains asks none (needs limit registered)) registered counted := by
  refine Outline.bind (Spec.instr (w := fun ticket => .pushing drains asks (some ticket)
    (needs limit registered)) (fun _ _ _ => rfl) fun s hi hs => ?_)
    fun ticket => Spec.instr (w := fun _ => .pushing drains asks none (needs limit registered))
      (fun _ _ _ => rfl) fun s hi hs => ⟨rfl, ?_, hs.registered⟩
  · refine ⟨by simp only [hs.needs]; rfl, ?_, hs.registered⟩
    refine hi.place rfl rfl rfl { hs.fits hi with rings := fun _ => rfl } ?_ ?_ ?_
    · intro c hc hp
      rcases mem_append.mp hc with hc | hc
      · exact exists_split (p := fun v => v.claimed = some c.ticket ∧ v.Answers) (hi.claims c hc hp)
          hs.view fun h => absurd h.1 nofun
      · obtain rfl := mem_singleton.mp hc
        exact .inl ⟨rfl, needs_or_drains h⟩
    · rintro ⟨c, hc, hp⟩
      rcases mem_append.mp hc with hc | hc
      · exact (hi.posted ⟨c, hc, hp⟩).imp id fun h => exists_split h hs.view
          (Or.imp (fun h => absurd h nofun) id)
      · obtain rfl := mem_singleton.mp hc
        exact absurd hp nofun
    · exact fun hq => (hi.quitting hq).imp id fun h => h.imp (fun h => exists_split h hs.view id) id
  · refine hi.place rfl rfl rfl { hs.fits hi with } ?_ ?_ ?_
    · intro c hc hp
      obtain ⟨c', hc', rfl⟩ := mem_map.mp hc
      by_cases hticket : c'.ticket = ticket
      · rw [if_pos hticket] at hp
        exact absurd hp nofun
      · rw [if_neg hticket] at hp ⊢
        refine exists_split (p := fun v => v.claimed = some c'.ticket ∧ v.Answers)
          (hi.claims c' hc' hp) hs.view fun h => ?_
        exact absurd (Option.some.inj h.1).symm hticket
    · exact fun _ => .inr (.inl (needs_or_drains h))
    · exact fun hq => (hi.quitting hq).imp id fun h => h.imp (fun h => exists_split h hs.view id) id

theorem outline_epollEnqueue (h : registered = true → drains = true) :
    Spec limit t (At t (.idle drains asks) registered counted) (epollEnqueue limit t)
      fun _ => At t (.idle drains asks) registered counted := by
  refine Outline.bind (outline_concurrentQueuePush h) fun _ => Outline.bind (Spec.instr
    (r := registered) (w := fun needed => if needed then .pushing drains asks none needed
      else .idle drains asks) (fun _ _ _ => rfl) fun s hi hs => ?_) fun needed => ?_
  · rw [hs.needs]
    by_cases hneeds : needs limit registered = true
    · rw [if_pos hneeds, if_pos hneeds]
      exact ⟨rfl, hi.keep hs rfl (hs.fits hi) id id, hs.registered⟩
    · rw [if_neg hneeds, if_neg hneeds, Bool.eq_false_iff.mpr hneeds]
      rw [Bool.eq_false_iff.mpr hneeds] at hs
      exact ⟨rfl, hi.keep hs rfl { hs.fits hi with rings := nofun } id id, hs.registered⟩
  · by_cases hneeded : needed = true
    · rw [if_pos hneeded, if_pos hneeded]
      exact Spec.instr (w := fun _ => .idle drains asks) (fun _ _ _ => rfl) fun s hi hs =>
        ⟨rfl, hi.ring hs rfl { hs.fits hi with rings := nofun }, hs.registered⟩
    · rw [if_neg hneeded, if_neg hneeded]
      exact .ret stable_at fun s _ hs => hs

theorem outline_epollWakeupLoop {wakes : Bool} :
    Spec limit t (At t { View.idle drains asks with wakes := wakes } registered counted)
      (epollWakeupLoop t) fun _ => At t (.idle drains asks) registered counted :=
  Spec.instr (w := fun _ => .idle drains asks) (fun _ _ _ => rfl) fun _ hi hs =>
    ⟨rfl, hi.ring hs rfl { hs.fits hi with }, hs.registered⟩

theorem outline_postQuitOperation :
    Spec limit t (At t (.idle drains asks) registered counted) (postQuitOperation t)
      fun _ => At t (.idle drains asks) registered counted := by
  refine Outline.bind (Spec.instr (r := registered)
    (w := fun _ => { View.idle drains asks with wakes := true })
    (fun _ _ _ => rfl) fun s hi hs => ⟨rfl, ?_, hs.registered⟩) fun _ => outline_epollWakeupLoop
  exact hi.place rfl rfl rfl { hs.fits hi with }
    (fun c hc hp => .inr (hi.claims_others hs rfl c hc hp))
    (fun hp => (hi.posted hp).imp id fun h => exists_split h hs.view id)
    fun _ => .inr (.inl (.inl (.inl rfl)))

theorem outline_work (h : registered = true → drains = true) :
    Spec limit t (At t (.idle drains asks) registered counted) (work limit t)
      fun _ => At t (.idle drains asks) registered counted := by
  refine Outline.loop (fun _ => At t (.idle drains asks) registered counted) () (fun _ => ?_)
    fun _ => stable_at
  refine Outline.bind (M := fun _ => At t (.idle drains asks) registered counted)
    (.pick stable_at (fun _ => stable_at) ?_) fun next => ?_
  · rintro _ next s rfl hi hs
    exact ⟨hi, .refl t _, hs⟩
  · rcases next with _ | _ | _ | _
    · exact .ret stable_at fun s _ hs => hs
    · exact .bind (outline_epollEnqueue h) fun _ => .ret stable_at fun s _ hs => hs
    · exact .bind outline_epollWakeupLoop fun _ => .ret stable_at fun s _ hs => hs
    · exact .bind outline_postQuitOperation fun _ => .ret stable_at fun s _ hs => hs

/-! ### Outlines: the loop -/

/-- Where a pop fails, whoever claimed the first cell answers for the others. -/
theorem outline_concurrentQueuePop :
    Spec limit t (At t (.idle true asks) registered counted) (concurrentQueuePop t)
      fun found => At t (.idle found asks) registered counted := by
  refine .act stable_at (fun _ => stable_at) fun s found s' heq hi hs => ?_
  have hfailed : (∀ c rest, s.mem.globalQueue = c :: rest → c.published = false) →
      Inv limit (s.place t (.idle false asks) s.mem) := by
    intro hhead
    refine hi.place rfl rfl rfl { hs.fits hi with drains := nofun }
      (fun c hc hp => .inr (hi.claims_others hs rfl c hc hp)) ?_
      fun hq => (hi.quitting hq).imp id fun h => h.imp (fun h => exists_split h hs.view id) id
    rintro ⟨c, hc, -⟩
    obtain ⟨first, rest, hqueue⟩ := exists_cons_of_ne_nil (ne_nil_of_mem hc)
    have hfirst : first ∈ s.mem.globalQueue := hqueue ▸ .head _
    obtain ⟨u, hu, -, hanswers⟩ :=
      hi.claims_others hs rfl first hfirst (hhead first rest hqueue)
    exact .inr (.inr ⟨u, hu, hanswers⟩)
  dsimp only at heq
  split at heq
  · next ticket rest hqueue =>
    cases heq
    rw [hs.stay_eq]
    have hmem : ∀ c ∈ rest, c ∈ s.mem.globalQueue := fun c hc => hqueue ▸ .tail _ hc
    refine ⟨?_, guar_place fun _ _ => rfl, hs.place hs.registered⟩
    exact hi.place rfl rfl rfl (hs.fits hi)
      (fun c hc hp => .inr (hi.claims_others hs rfl c (hmem c hc) hp))
      (fun ⟨c, hc, hp⟩ => (hi.posted ⟨c, hmem c hc, hp⟩).imp id fun h => exists_split h hs.view id)
      fun hq => (hi.quitting hq).imp id fun h => h.imp (fun h => exists_split h hs.view id) id
  · next hhead =>
    cases heq
    rw [hs.move_eq]
    refine ⟨hfailed fun c rest hqueue => ?_, guar_place fun _ _ => rfl, hs.place hs.registered⟩
    by_contra hp
    have hp : c.published = true := by simpa using hp
    exact hhead c.ticket rest (hqueue.trans (by rw [← hp]))

theorem outline_executeGlobalQueue :
    Spec limit t (At t (.idle true asks) registered counted) (executeGlobalQueue limit t)
      fun _ => At t (.idle false asks) registered counted := by
  refine Outline.loop (fun _ => At t (.idle true asks) registered counted) () (fun _ => ?_)
    fun _ => stable_at
  refine Outline.bind outline_concurrentQueuePop fun found => ?_
  by_cases hfound : found = true
  · rw [if_pos hfound, hfound]
    exact .bind (outline_work fun _ => rfl) fun _ => .ret stable_at fun s _ hs => hs
  · rw [if_neg hfound, Bool.eq_false_iff.mpr hfound]
    exact .ret stable_at fun s _ hs => hs

theorem outline_epollWait :
    Spec limit t (At t (.idle false false) true true) (epollWait t)
      fun _ => At t (.idle true true) true true := by
  refine Outline.bind (M := fun _ => At t { View.idle false false with blocked := true } true true)
    (Spec.instr (w := fun _ => { View.idle false false with blocked := true }) (fun _ _ _ => rfl)
      fun s hi hs => ⟨rfl, ?_, hs.registered⟩) fun _ => .pick stable_at (fun _ => stable_at) ?_
  · exact hi.keep hs rfl ⟨fun _ => hs.counted.mpr rfl, nofun, nofun, nofun⟩ id id
  · rintro s doorbell s' ⟨-, rfl⟩ hi hs
    rw [hs.move_eq]
    refine ⟨?_, guar_place fun _ _ => rfl, hs.place hs.registered⟩
    exact hi.keep hs rfl ⟨nofun, nofun, fun _ => ⟨hs.registered, rfl⟩, fun _ => ⟨hs.registered, rfl⟩⟩
      (fun _ => .inr rfl) fun _ => .inr rfl

theorem outline_handleEvents {doorbell : Bool} :
    Spec limit t (At t (.idle true true) true true) (handleEvents limit t doorbell)
      fun _ => At t (.idle true true) true true := by
  refine Outline.loop (fun _ => At t (.idle true true) true true) doorbell (fun doorbell => ?_)
    fun _ => stable_at
  refine Outline.bind (M := fun _ => At t (.idle true true) true true)
    (.pick stable_at (fun _ => stable_at) ?_) fun next => ?_
  · rintro s next s' ⟨rfl, -⟩ hi hs
    exact ⟨hi, .refl t _, hs⟩
  · rcases next with _ | _ | _
    · exact .ret stable_at fun s _ hs => hs
    · exact .bind (outline_work fun _ => rfl) fun _ => .ret stable_at fun s _ hs => hs
    · -- The thread that empties the doorbell answers for all itself.
      refine .bind (M := fun _ => At t (.idle true true) true true) (Spec.instr
        (w := fun _ => .idle true true) (fun _ _ _ => rfl) fun s hi hs => ⟨rfl, ?_, hs.registered⟩)
        fun _ => .ret stable_at fun s _ hs => hs
      exact hi.place rfl rfl rfl (hs.fits hi)
        (fun c hc hp => .inr (hi.claims_others hs rfl c hc hp))
        (fun _ => .inr (.inl (.inr rfl))) fun _ => .inr (.inl (.inl (.inr rfl)))

/-! ### Outlines: registration -/

section Registry

variable {m : Mem τ} {list : List τ}

/-- A free slot is claimed by a thread that has none. -/
theorem Registry.register (h : Registry limit m list) {id : ℕ}
    (hfree : m.loopThreadSlots id = false) (hid : id < limit) :
    Registry limit { m with
      loopThreadSlots := update m.loopThreadSlots id true
      threadLocal := update m.threadLocal t ⟨id, true⟩ } list := by
  -- The slots of the others are taken, so none of them is the new one.
  have hother : ∀ u, m.Registered u → m.slot u ≠ id := fun u hu heq => by
    have htaken := (h.slot u hu).1
    rw [heq, hfree] at htaken
    exact absurd htaken nofun
  refine ⟨fun u hu => ?_, fun u v hu hv heq => ?_, fun u hu => ?_, h.nodup, h.counter⟩
  · by_cases hut : u = t
    · subst hut
      simp [Mem.slot, hid]
    · simp only [Mem.Registered, Mem.slot, update_of_ne hut] at hu ⊢
      have hne : (m.threadLocal u).messageLoopThreadId ≠ id := hother u hu
      rw [update_of_ne hne]
      exact h.slot u hu
  · by_cases hut : u = t <;> by_cases hvt : v = t
    · rw [hut, hvt]
    · subst hut
      simp only [Mem.Registered, Mem.slot, update_self, update_of_ne hvt] at hv heq
      exact absurd heq.symm (hother v hv)
    · subst hvt
      simp only [Mem.Registered, Mem.slot, update_self, update_of_ne hut] at hu heq
      exact absurd heq (hother u hu)
    · simp only [Mem.Registered, Mem.slot, update_of_ne hut, update_of_ne hvt]
        at hu hv heq
      exact h.distinct u v hu hv heq
  · by_cases hut : u = t
    · subst hut
      simp [Mem.Registered]
    · simp only [Mem.Registered, update_of_ne hut]
      exact h.registered u hu

/-- A slot is given up by a thread that has left the counter. -/
theorem Registry.unregister (h : Registry limit m list) (ht : m.Registered t) (hlist : t ∉ list) :
    Registry limit { m with
      loopThreadSlots := update m.loopThreadSlots (m.slot t) false
      threadLocal := update m.threadLocal t
        { m.threadLocal t with loopThreadSlotOwned := false } } list := by
  have hself : ∀ u, (update m.threadLocal t
      { m.threadLocal t with loopThreadSlotOwned := false } u).loopThreadSlotOwned = true →
      u ≠ t := by
    rintro u hu rfl
    rw [update_self] at hu
    exact absurd hu nofun
  refine ⟨fun u hu => ?_, fun u v hu hv heq => ?_, fun u hu => ?_, h.nodup, h.counter⟩
  · have hut := hself u hu
    simp only [Mem.Registered, Mem.slot, update_of_ne hut] at hu ⊢
    have hne : (m.threadLocal u).messageLoopThreadId ≠ (m.threadLocal t).messageLoopThreadId :=
      fun heq => hut (h.distinct u t hu ht heq)
    rw [update_of_ne hne]
    exact h.slot u hu
  · have hut := hself u hu
    have hvt := hself v hv
    simp only [Mem.Registered, Mem.slot, update_of_ne hut, update_of_ne hvt]
      at hu hv heq
    exact h.distinct u v hu hv heq
  · have hut : u ≠ t := fun heq => hlist (heq ▸ hu)
    simp only [Mem.Registered, update_of_ne hut]
    exact h.registered u hu

end Registry

/-- The others are not concerned by what a thread does with its own variables. -/
theorem guar_go {m : Mem τ} {list : List τ} (hlocal : ∀ u, u ≠ t → m.threadLocal u = s.mem.threadLocal u)
    (hlist : ∀ u, u ≠ t → (u ∈ list ↔ u ∈ s.counted)) : Guar t s (s.go t v m list) :=
  ⟨fun _ hu => update_of_ne hu _ _, hlocal, hlist⟩

theorem Inv.register (hi : Inv limit s) (hs : At t (.idle false false) false false s)
    {slot : ℕ} (hfree : s.mem.loopThreadSlots slot = false) (hslot : slot < limit) :
    Inv limit (s.place t (.idle true false) { s.mem with
      loopThreadSlots := update s.mem.loopThreadSlots slot true
      threadLocal := update s.mem.threadLocal t ⟨slot, true⟩ }) := by
  refine hi.go (guar_go (fun u hu => update_of_ne hu _ _) fun _ _ => .rfl)
    (hi.registry.register hfree hslot) ⟨nofun, nofun, fun _ => ⟨?_, rfl⟩, nofun⟩
    (fun c hc hp => .inr (hi.claims_others hs rfl c hc hp)) (fun _ => .inr (.inl (.inr rfl)))
    fun hq => (hi.quitting hq).imp id fun h => h.imp (fun h => exists_split h hs.view id) id
  simp [Mem.Registered]

/-- The thread enters the counter. -/
theorem Inv.count (hi : Inv limit s) (hs : At t (.idle true false) true false s) :
    Inv limit (s.go t (.idle true true)
      { s.mem with messageLoopThreadCounter := s.mem.messageLoopThreadCounter + 1 }
      (t :: s.counted)) := by
  have hnot : t ∉ s.counted := fun h => absurd (hs.counted.mp h) nofun
  refine hi.go (guar_go (fun _ _ => rfl) fun u hu => by simp [hu]) ?_
    ⟨nofun, nofun, fun _ => ⟨hs.registered, rfl⟩, fun _ => ⟨hs.registered, rfl⟩⟩
    (fun c hc hp => .inr (hi.claims_others hs rfl c hc hp)) (fun _ => .inr (.inl (.inr rfl)))
    fun _ => .inr (.inl (.inl (.inr rfl)))
  exact
    { hi.registry with
      registered := fun u hu => (mem_cons.mp hu).elim (fun heq => heq ▸ hs.registered)
        (hi.registry.registered u)
      nodup := nodup_cons.mpr ⟨hnot, hi.registry.nodup⟩
      counter := by simp [hi.registry.counter] }

theorem outline_loopThreadEnter :
    Spec limit t (At t (.idle false false) false false) (loopThreadEnter limit t) fun entered =>
      At t (.idle entered entered) entered entered := by
  refine Outline.loop (fun _ => At t (.idle false false) false false) 0 (fun slot => ?_)
    fun _ => stable_at
  split
  · next hslot =>
    refine .bind (M := fun _ => At t (.idle false false) false false) (Spec.instr
      (w := fun _ => .idle false false) (fun _ _ _ => rfl) fun s hi hs =>
        ⟨rfl, hi.keep hs rfl (hs.fits hi) id id, hs.registered⟩) fun taken => ?_
    split
    · exact .ret stable_at fun s _ hs => hs
    refine .bind (M := fun old => At t (.idle (!old) false) (!old) false) (.act stable_at
      (fun _ => stable_at) fun s old s' heq hi hs => ?_) fun old => ?_
    · cases heq
      rw [hs.move_eq]
      by_cases htaken : s.mem.loopThreadSlots slot = true
      · simp only [htaken, if_true, Bool.not_true]
        exact ⟨hi.keep hs rfl (hs.fits hi) id id, guar_place fun _ _ => rfl, hs.place hs.registered⟩
      · have hfree : s.mem.loopThreadSlots slot = false := by simpa using htaken
        simp only [hfree, Bool.false_eq_true, if_false, Bool.not_false]
        refine ⟨hi.register hs hfree hslot, guar_place fun u hu => update_of_ne hu _ _, hs.place ?_⟩
        simp
    · by_cases hold : old = true
      · simp only [hold, Bool.not_true, Bool.false_eq_true, if_false]
        exact .ret stable_at fun s _ hs => hs
      · have hold : old = false := by simpa using hold
        simp only [hold, Bool.not_false, if_true]
        refine .bind (M := fun _ => At t (.idle true true) true true) (.act stable_at
          (fun _ => stable_at) fun s _ s' heq hi hs => ?_) fun _ => .ret stable_at fun s _ hs => hs
        cases heq
        rw [hs.move_eq]
        exact ⟨hi.count hs, guar_go (fun _ _ => rfl) fun u hu => by simp [hu], go_view _ _ _ _,
          hs.registered, by simp⟩
  · exact .ret stable_at fun s _ hs => hs

/-- The thread leaves the counter, and rings unless it was the last. -/
theorem Inv.uncount (hi : Inv limit s) (hs : At t (.idle false true) true true s) :
    Inv limit (s.go t
      { View.idle false false with wakes := decide (s.mem.messageLoopThreadCounter - 1 ≠ 0) }
      { s.mem with messageLoopThreadCounter := s.mem.messageLoopThreadCounter - 1 }
      (s.counted.erase t)) := by
  have hmem : t ∈ s.counted := hs.counted.mpr rfl
  have hlength : s.mem.messageLoopThreadCounter - 1 = (s.counted.erase t).length := by
    rw [length_erase_of_mem hmem, hi.registry.counter]
  refine hi.go (guar_go (fun _ _ => rfl) fun u hu => by simp [mem_erase_of_ne hu]) ?_
    ⟨nofun, nofun, nofun, nofun⟩ (fun c hc hp => .inr (hi.claims_others hs rfl c hc hp))
    (fun hp => (hi.posted hp).imp id fun h => exists_split h hs.view
      (Or.imp (fun h => absurd h nofun) fun h => absurd h nofun)) fun _ => .inr ?_
  · exact
      { hi.registry with
        registered := fun u hu => hi.registry.registered u (mem_of_mem_erase hu)
        nodup := hi.registry.nodup.erase t
        counter := hlength }
  · by_cases hlast : s.mem.messageLoopThreadCounter - 1 = 0
    · exact .inr (length_eq_zero_iff.mp (hlength.symm.trans hlast))
    · exact .inl (.inl (.inl (by simp [hlast])))

theorem outline_loopThreadExit :
    Spec limit t (At t (.idle false true) true true) (loopThreadExit t) fun remaining =>
      At t { View.idle false false with wakes := decide (remaining ≠ 0) } false false := by
  refine Outline.bind (M := fun remaining =>
    At t { View.idle false false with wakes := decide (remaining ≠ 0) } true false)
    (.act stable_at (fun _ => stable_at) fun s remaining s' heq hi hs => ?_) fun remaining =>
      .bind (M := fun _ => At t { View.idle false false with wakes := decide (remaining ≠ 0) }
        false false) (Spec.instr (r := false)
        (w := fun _ => { View.idle false false with wakes := decide (remaining ≠ 0) })
        (fun _ u hu => update_of_ne hu _ _) fun s hi hs => ⟨rfl, ?_, by simp⟩)
        fun _ => .ret stable_at fun s _ hs => hs
  · cases heq
    rw [hs.move_eq]
    refine ⟨hi.uncount hs, guar_go (fun _ _ => rfl) fun u hu => by simp [mem_erase_of_ne hu],
      go_view _ _ _ _, hs.registered, ?_⟩
    simp [hi.registry.nodup.mem_erase_iff]
  · have hnot : t ∉ s.counted := fun h => absurd (hs.counted.mp h) nofun
    exact hi.go (guar_go (fun u hu => update_of_ne hu _ _) fun _ _ => .rfl)
      (hi.registry.unregister hs.registered hnot) ⟨nofun, nofun, nofun, nofun⟩
      (fun c hc hp => .inr (hi.claims_others hs rfl c hc hp))
      (fun hp => (hi.posted hp).imp id fun h => exists_split h hs.view id)
      fun hq => (hi.quitting hq).imp id fun h => h.imp (fun h => exists_split h hs.view id) id

theorem outline_epollNextFinishedOperation :
    Spec limit t (At t (.idle false false) false false) (epollNextFinishedOperation limit t)
      fun _ => At t (.idle false false) false false := by
  refine Outline.bind outline_loopThreadEnter fun entered => ?_
  by_cases hentered : entered = true
  · rw [if_pos hentered, hentered]
    refine Outline.loop (fun _ => At t (.idle true true) true true) () (fun _ => ?_)
      fun _ => stable_at
    refine .bind outline_executeGlobalQueue fun _ => .bind (M := fun quitting =>
      At t (.idle false quitting) true true) (Spec.instr (w := fun quitting => .idle false quitting)
        (fun _ _ _ => rfl) fun s hi hs => ?_) fun quitting => ?_
    · refine ⟨by cases s.mem.quitRequested <;> rfl, ?_, hs.registered⟩
      dsimp only
      by_cases hquit : s.mem.quitRequested = true
      · rw [hquit]
        exact hi.keep hs rfl (hs.fits hi) id id
      · have hquit : s.mem.quitRequested = false := by simpa using hquit
        rw [hquit]
        exact hi.place rfl rfl rfl ⟨nofun, nofun, nofun, nofun⟩
          (fun c hc hp => .inr (hi.claims_others hs rfl c hc hp))
          (fun hp => (hi.posted hp).imp id fun h => exists_split h hs.view id)
          fun hq => absurd (hquit.symm.trans hq) nofun
    · by_cases hquitting : quitting = true
      · rw [if_pos hquitting, hquitting]
        refine .bind outline_loopThreadExit fun remaining => .bind
          (M := fun _ => At t (.idle false false) false false) ?_
          fun _ => .ret stable_at fun s _ hs => hs
        split
        · exact outline_epollWakeupLoop
        · next hlast =>
          refine .ret stable_at fun s _ hs => ?_
          rw [decide_eq_false hlast] at hs
          exact hs
      · rw [if_neg hquitting, Bool.eq_false_iff.mpr hquitting]
        exact .bind outline_epollWait fun doorbell => .bind (outline_work fun _ => rfl) fun _ =>
          .bind outline_handleEvents fun _ => .ret stable_at fun s _ hs => hs
  · rw [if_neg hentered, Bool.eq_false_iff.mpr hentered]
    exact .ret stable_at fun s _ hs => hs

theorem outline_thread (t : τ) :
    Spec limit t (At t (.idle false false) false false) (thread limit t) fun _ _ => True := by
  refine Outline.loop (fun _ => At t (.idle false false) false false) () (fun _ => ?_)
    fun _ => .pure True
  exact .bind (outline_work nofun) fun _ => .bind outline_epollNextFinishedOperation fun _ =>
    .ret stable_at fun s _ hs => hs

end Outlines

/-! ### The theorem -/

theorem inv_initial (limit : ℕ) : Inv limit (State.initial (τ := τ)) where
  registry := ⟨nofun, nofun, nofun, nodup_nil, rfl⟩
  fits := fun _ => ⟨nofun, nofun, nofun, nofun⟩
  claims := nofun
  posted := fun ⟨_, hc, _⟩ => absurd hc nofun
  quitting := nofun

/-- **No doorbell is lost.** In every state of every run of a base with `limit` loop threads:

* registered threads own distinct slots below the limit;
* if all registered threads are blocked and no thread is inside `epollEnqueue`, no completion is
  published unless the doorbell has rung;
* if a request to quit stands and a registered thread is blocked, the doorbell has rung, or some
  registered thread is awake, or some thread that made the request, or left while others remained, is
  about to ring. -/
theorem doorbells_never_lost [DecidableEq τ] {limit : ℕ} {c : Config (State τ) τ}
    (hrun : Run ⟨State.initial, thread limit⟩ c) :
    (∀ t, c.shared.mem.Registered t → c.shared.mem.slot t < limit ∧
      ∀ u, c.shared.mem.Registered u → c.shared.mem.slot t = c.shared.mem.slot u → t = u) ∧
    ((∀ t, c.shared.mem.Registered t → (c.shared.view t).blocked = true) →
      (∀ t, (c.shared.view t).enqueuing = false) →
      (∃ cell ∈ c.shared.mem.globalQueue, cell.published = true) →
        c.shared.mem.eventFd = true) ∧
    (c.shared.mem.quitRequested = true →
      (∃ t, c.shared.mem.Registered t ∧ (c.shared.view t).blocked = true) →
      c.shared.mem.eventFd = true ∨
      (∃ t, c.shared.mem.Registered t ∧ (c.shared.view t).blocked = false) ∨
      ∃ t, (c.shared.view t).wakes = true) := by
  have hi : Inv limit c.shared :=
    invariant_of_outlines (inv_initial limit)
      (fun t => (⟨rfl, rfl, by simp [State.initial]⟩ : At t (.idle false false) false false _))
      outline_thread hrun
  refine ⟨fun t ht => ⟨(hi.registry.slot t ht).2, fun u hu => hi.registry.distinct t u ht hu⟩,
    fun hblocked hnone hp => ?_, fun hq ⟨t, _, ht⟩ => ?_⟩
  · rcases hi.posted hp with hflag | ⟨t, hrings | hdrains⟩
    · exact hflag
    · exact absurd ((hnone t).symm.trans ((hi.fits t).rings hrings)) nofun
    · obtain ⟨hregistered, hawake⟩ := (hi.fits t).drains hdrains
      exact absurd (hawake.symm.trans (hblocked t hregistered)) nofun
  · rcases hi.quitting hq with hflag | ⟨u, hwakes | hasks⟩ | hnone
    · exact .inl hflag
    · exact .inr (.inr ⟨u, hwakes⟩)
    · exact .inr (.inl ⟨u, (hi.fits u).asks hasks⟩)
    · have hcounted := (hi.fits t).blocked ht
      rw [hnone] at hcounted
      exact absurd hcounted nofun

/-- A loop thread sleeps, and another thread completes an operation. -/
theorem doorbells_never_lost_asleep : ∃ c : Config (State Bool) Bool,
    Run ⟨State.initial, thread 2⟩ c ∧ (c.shared.view true).blocked = true ∧
      (∃ cell ∈ c.shared.mem.globalQueue, cell.published = true) ∧ c.shared.mem.eventFd = true := by
  have hrun : ∃ c : Config (State Bool) Bool, Run ⟨State.initial, thread 2⟩ c ∧
      (c.shared.view true).blocked = true ∧
      (c.shared.mem.threadLocal false).loopThreadSlotOwned = false ∧
      (∀ t, (c.shared.view t).enqueuing = false) ∧
      ∃ cell ∈ c.shared.mem.globalQueue, cell.published = true := by
    apply Exists.intro
    apply And.intro
    · apply Relation.ReflTransGen.trans
      · apply Run.of_steps (t := true)
        apply Steps.loop
        apply Steps.bind
        apply Steps.seq
        · exact .loop (.seq (.seq (.pick (x := none) rfl) (.refl _ _)) (.refl _ _))
        apply Steps.bind
        apply Steps.seq
        · exact Prog.steps_of_eval 1 rfl
        apply Steps.loop
        apply Steps.bind
        apply Steps.seq
        · exact Prog.steps_of_eval 1 rfl
        apply Steps.seq
        · exact .act rfl
        exact .bind (.seq (.act rfl) (.refl _ _)) _
      · apply Run.of_steps (t := false)
        exact .loop (.bind (.bind (.loop (.seq (.seq (.pick (x := some Work.complete) rfl)
          (.seq (Prog.steps_of_eval 1 rfl) (.refl _ _))) (.refl _ _))) _) _)
    · exact ⟨rfl, rfl, by decide, _, .head _, rfl⟩
  obtain ⟨c, hrun, hblocked, hother, hnone, hpublished⟩ := hrun
  refine ⟨c, hrun, hblocked, hpublished, (doorbells_never_lost hrun).2.1 (fun t ht => ?_) hnone
    hpublished⟩
  cases t with
  | false => exact absurd (hother.symm.trans ht) nofun
  | true => exact hblocked

end MessageLoop

end Asyncio

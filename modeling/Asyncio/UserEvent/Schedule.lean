import Asyncio.UserEvent.Timing

/-!
# The schedules of a user event

Any number of threads publish configurations, one deletes the event, and kernel threads signal ticks
of generations that the backend was armed for. One thread at most owns the timer; while nobody does,
the backend is armed as the newest published configuration says; and a finite schedule never delivers
more ticks than its counter.

## Main results

* `UserEvent.last_publication_wins` — the control word and the backend, up to `2 ^ 32 - 1`
  publications
* `UserEvent.never_over_delivers` — a finite schedule, whatever the generations do
-/

namespace Asyncio

namespace UserEvent

open Concurrent

namespace Schedule

open Ownership

variable {κ τ : Type}

/-! ### What has nothing to do with the timer -/

/-- Nothing that belongs to the timer has changed. -/
structure Apart (s s' : State κ τ) : Prop where
  control : s'.mem.control = s.mem.control
  timer : s'.mem.timer = s.mem.timer
  backend : s'.mem.backend = s.mem.backend
  deleted : s'.mem.tag.deleted = s.mem.tag.deleted
  schedules : s'.ghost.schedules = s.ghost.schedules

theorem Apart.refl (s : State κ τ) : Apart s s := ⟨rfl, rfl, rfl, rfl, rfl⟩

variable {s s' : State κ τ}

theorem Apart.holding (h : Apart s s') :
    Ownership.holding s' = Ownership.holding s := by
  simp only [Ownership.holding, h.timer, h.backend, h.schedules]

theorem Apart.inv (h : Apart s s') (hi : Inv s) : Inv s' := by
  refine ⟨?_, fun hf => ?_⟩
  · have hi := hi.1
    constructor <;> simp only [h.control, h.deleted, h.schedules, h.holding]
    exacts [hi.first, hi.generation, hi.owners, hi.rest, hi.waiting, hi.ticks, hi.numbers,
      hi.published, hi.applied, hi.source, hi.sound, hi.drained, hi.deleting, hi.alive]
  · have hu := hi.2 (by simpa only [Few, h.schedules] using hf)
    constructor <;> simp only [h.control, h.deleted, h.schedules, h.holding]
    exacts [hu.pending, hu.active, hu.usedApplied, hu.usedArmed, hu.usedPublished, hu.distinct,
      hu.applied, hu.here, hu.unarmed, hu.rest, hu.terminal, hu.misplaced, hu.crossed]

theorem Apart.promise {t : τ} (h : Apart s s') : Promise t s s' where
  first := by rw [h.schedules]
  grows := by rw [h.schedules]
  terminal := fun _ _ => by rw [h.schedules]
  announce := by rw [h.schedules]; exact .inl
  armedFor := by rw [h.schedules]; exact fun _ h => h
  owners := by rw [h.schedules]; exact fun _ h => .inr h
  owned := fun _ _ howns => by rw [h.schedules, h.holding]; exact ⟨howns, rfl, fun h => h⟩
  deleting := fun _ _ hdeleting => ⟨by rw [h.schedules]; exact hdeleting, h.deleted⟩

section Within

theorem within_instr {β : Type} {f : Mem κ → β × Mem κ} {note : Mem κ → Ghost τ → Ghost τ}
    (h : ∀ m g, Apart ⟨m, g⟩ ⟨(f m).2, note m g⟩) : Within Apart (instr f note) :=
  .act fun s x s' heq => by
    cases heq
    exact h s.mem s.ghost

theorem within_read {β : Type} {f : Mem κ → β} {note : β → Ghost τ → Ghost τ}
    (h : ∀ x g, (note x g).schedules = g.schedules) : Within Apart (read (κ := κ) f note) :=
  within_instr fun _ _ => ⟨rfl, rfl, rfl, rfl, h _ _⟩

theorem within_casWaiter [DecidableEq κ] {expected : WaiterWord κ} {desired : Waiter κ}
    {won : Ghost τ → Ghost τ} (h : ∀ g, (won g).schedules = g.schedules) :
    Within Apart (casWaiter expected desired won) :=
  .act fun s x s' heq => by
    dsimp only at heq
    split at heq
    · cases heq
      exact ⟨rfl, rfl, rfl, rfl, h _⟩
    · cases heq
      exact .refl s

variable [DecidableEq τ] {t : τ}

theorem within_callTaken [DecidableEq κ] {low : Waiter κ} : Within Apart (callTaken t low) := by
  unfold callTaken
  split
  · exact .ret _
  · exact within_instr fun _ _ => ⟨rfl, rfl, rfl, rfl, rfl⟩

/-- A timer's resume publishes nothing. -/
theorem within_eventCoroutineResume [DecidableEq κ] {count generation : ℕ} :
    Within Apart (eventCoroutineResume (κ := κ) t count false generation) := by
  refine .bind (within_read fun _ _ => rfl) fun expected => .loop _ fun expected => ?_
  split
  · exact .ret _
  refine .bind ?_ fun stale => ?_
  · simp only [Bool.false_and, Bool.false_eq_true, if_false]
    split
    · exact .bind (within_read fun _ _ => rfl) fun _ => .ret _
    · exact .ret _
  split
  · exact .ret _
  refine .bind (within_casWaiter fun _ => rfl) ?_
  rintro ⟨won, seen⟩
  dsimp only
  split
  · exact .bind within_callTaken fun _ => .ret _
  · exact .ret _

end Within

/-! ### The system -/

/-- Any thread accesses the control word. -/
theorem hosts : Hosts (κ := κ) (τ := τ) Inv Promise fun _ _ => True where
  core := fun _ hi => hi
  promise := fun _ _ _ hg => hg
  stable := fun _ _ _ _ _ _ _ _ h => h
  step := fun _ _ _ _ _ hi hg _ => ⟨hi, hg, trivial⟩

/-- What a thread does with the control word. -/
inductive Call
  /-- Start, stop, sleep, or cancel a generation. -/
  | publish (period : ℕ) (counter : ℤ) (requiredGeneration : ℕ)
  | signal (timerGeneration tickCount : ℕ)
  | delete

/-- Signals come from timers that the backend was armed for. -/
def Call.Possible (s : State κ τ) : Call → Prop
  | signal timerGeneration _ => timerGeneration ∈ s.ghost.schedules.armedFor
  | _ => True

variable [DecidableEq κ] [DecidableEq τ]

/-- The call, by thread `t`. -/
def perform (t : τ) : Call → Prog (State κ τ) Unit
  | .publish period counter requiredGeneration => do
    let _ ← eventTimerPublishConfig t period counter requiredGeneration false
    return ()
  | .signal timerGeneration tickCount => eventTimerSignalClaimed t timerGeneration tickCount
  | .delete => do
    beginDelete t
    let _ ← deletePublish t
    return ()

/-- Any number of calls. -/
def thread (t : τ) : Prog (State κ τ) Unit :=
  .loop (fun _ : Unit => do
    let call ← (.pick fun s call s' => s' = s ∧ call.Possible s : Prog (State κ τ) Call)
    perform t call
    return .inl ()) ()

/-- An event as `newUserEvent` hands it out; its timer may be there from before, unarmed. -/
structure Begins (s : State κ τ) : Prop where
  control : ∃ generation < 2 ^ 32, s.mem.control = ⟨0, 0, generation, false⟩ ∧
    s.ghost.schedules = .initial generation
  timer : ∀ state, s.mem.timer = some state → state.armed = false
  backend : s.mem.backend = none
  deleted : s.mem.tag.deleted = false

omit [DecidableEq κ] [DecidableEq τ] in
theorem Begins.inv {s : State κ τ} (h : Begins s) : Inv s := by
  obtain ⟨generation, hlt, hcontrol, hschedules⟩ := h.control
  have hnone : (Ownership.holding s).applied = [] := by
    simp only [Ownership.holding, hschedules, Schedules.initial]
  have hgeneration : s.mem.control.generation = s.ghost.schedules.appliedGeneration := by
    rw [hcontrol, hschedules]
    rfl
  have hused : Used s.ghost.schedules s.ghost.schedules.appliedGeneration :=
    ⟨0, Nat.zero_le _, by rw [hschedules]; rfl⟩
  refine ⟨?_, fun _ => ?_⟩
  · exact
      { first := by rw [hschedules]; exact hlt
        generation := by rw [hcontrol, hschedules]; rfl
        owners := .inr (by rw [hcontrol, hschedules]; exact ⟨rfl, rfl⟩)
        rest := fun _ => ⟨hgeneration, fun x hx => by rw [hnone] at hx; cases hx⟩
        waiting := fun hne => absurd hgeneration hne
        ticks := by rw [hschedules]; rintro _ ⟨⟩
        numbers := by rw [hschedules]; rintro _ ⟨⟩
        published := by rw [hschedules]; exact List.nodup_nil
        applied := by rw [hschedules]; exact List.nodup_nil
        source := by rw [hschedules]; rintro _ ⟨⟩
        sound :=
          { armed := fun hne => absurd h.backend hne
            backend := fun state hstate harmed =>
              absurd ((h.timer state hstate).symm.trans harmed) Bool.false_ne_true
            head := by rw [hnone]; rintro _ ⟨⟩
            bound := by rw [hnone]; rintro _ ⟨⟩
            exact := by rw [hnone]; rintro _ ⟨⟩ }
        drained := by rw [hschedules]; rintro _ ⟨⟩
        deleting := by rw [hschedules]; rintro _ ⟨⟩
        alive := fun _ => ⟨h.deleted, by rw [hschedules]; exact fun h => List.not_mem_nil h.choose_spec.1⟩ }
  · exact
      { pending := by rw [hschedules]; rintro ⟨⟩
        active := fun _ => by rw [hschedules]; rfl
        usedApplied := hused
        usedArmed := by rw [hschedules]; rintro _ ⟨⟩
        usedPublished := by rw [hschedules]; rintro _ ⟨⟩
        distinct := by rw [hschedules]; exact List.nodup_nil
        applied := by rw [hschedules]; rintro _ ⟨⟩
        here := by rw [hschedules]; rintro _ ⟨⟩
        unarmed := by rw [hschedules]; rintro _ ⟨⟩
        rest := fun _ => by rw [Holding.Settled, hnone]; rintro _ ⟨⟩
        terminal := by rw [hschedules]; rintro _ ⟨⟩
        misplaced := by rw [hschedules]; rfl
        crossed := by rw [hschedules]; rfl }

variable {t : τ}

omit [DecidableEq κ] [DecidableEq τ] in
theorem stable_true : Stable (poolTerms (Inv (κ := κ)) Promise t) fun _ => True ∧ True :=
  hosts.stable_of_steady (.pure True)

omit [DecidableEq κ] [DecidableEq τ] in
/-- What has nothing to do with the timer may be done at any time. -/
theorem outline_apart {β : Type} {p : Prog (State κ τ) β} (h : Within Apart p) :
    Spec Inv Promise (fun _ _ => True) t (fun _ => True) p fun _ _ => True :=
  h.outline stable_true fun _ _ ha hi _ => ⟨ha.inv hi, ha.promise, trivial, trivial⟩

theorem outline_eventTimerSignalClaimed {timerGeneration tickCount : ℕ} :
    Spec (κ := κ) Inv Promise (fun _ _ => True) t
      (fun s => timerGeneration ∈ s.ghost.schedules.armedFor)
      (eventTimerSignalClaimed t timerGeneration tickCount) fun _ _ => True := by
  have harmed : Steady (κ := κ) t fun s => timerGeneration ∈ s.ghost.schedules.armedFor :=
    fun _ _ _ _ _ _ hg h => hg.armedFor h
  refine .loop (fun (_ : Unit) s => True ∧ timerGeneration ∈ s.ghost.schedules.armedFor) ()
    (fun _ => ?_) fun _ => stable_true
  refine .bind (M := fun _ s => True ∧ timerGeneration ∈ s.ghost.schedules.armedFor)
    (hosts.spec_look harmed (fun _ => harmed) fun s _ hs => hs) fun old => ?_
  split
  · exact .ret (hosts.stable_of_steady harmed) fun s _ _ => ⟨trivial, trivial⟩
  next hold =>
  have hold : old.generation = timerGeneration := by simpa using hold
  refine .bind (hosts.outline_tick hold) ?_
  have hwon : ∀ won : Bool, Steady (κ := κ) t fun s =>
      timerGeneration ∈ s.ghost.schedules.armedFor ∧ (won = true → old.owner = false →
        Serving t timerGeneration
          { old with low := (old.low + tickCount) % 2 ^ 64, owner := true } s) :=
    fun _ => harmed.and (.imp fun _ => .imp fun _ => steady_serving)
  rintro ⟨_ | _, seen⟩
  · refine .pre (R := fun s => True ∧ timerGeneration ∈ s.ghost.schedules.armedFor) ?_
      (hosts.stable_of_steady (hwon false)) fun s _ hs => ⟨trivial, hs.2.1⟩
    simp only [Bool.false_eq_true, if_false]
    split
    · exact .ret (hosts.stable_of_steady harmed) fun s _ _ => ⟨trivial, trivial⟩
    · exact .ret (hosts.stable_of_steady harmed) fun s _ hs => hs
  by_cases howner : old.owner = true
  · refine .pre (R := fun _ => True ∧ True) ?_ (hosts.stable_of_steady (hwon true))
      fun s _ _ => ⟨trivial, trivial⟩
    simp only [if_true, howner]
    exact .ret stable_true fun s _ hs => hs
  · refine .pre (R := fun s => True ∧ Serving t old.generation
      { old with low := (old.low + tickCount) % 2 ^ 64, owner := true } s) ?_
      (hosts.stable_of_steady (hwon true)) fun s _ hs =>
        ⟨trivial, hold.symm ▸ hs.2.2 rfl (Bool.eq_false_iff.mpr howner)⟩
    simp only [if_true, if_neg howner]
    refine .bind hosts.outline_eventTimerProcessKernelOwner ?_
    rintro ⟨deliveryCount, deliveryGeneration⟩
    dsimp only
    split
    · refine .bind (outline_apart (within_read fun _ _ => rfl)) fun callback =>
        .bind (outline_apart ?_) fun _ => .ret stable_true fun s _ hs => hs
      split
      · exact .ret _
      · exact within_eventCoroutineResume
    · exact .ret stable_true fun s _ hs => hs

omit [DecidableEq κ] [DecidableEq τ] in
theorem outline_beginDelete :
    Spec (κ := κ) Inv Promise (fun _ _ => True) t (fun _ => True) (beginDelete t)
      fun _ => Deleting t false := by
  refine .act stable_true (fun _ => hosts.stable_of_steady steady_deleting)
    fun s x s' heq hi _ => ?_
  dsimp only at heq
  split at heq
  · exact absurd heq nofun
  next hcalled =>
  cases heq
  have hcalled : s.ghost.schedules.deleteCalled = false := by simpa using hcalled
  obtain ⟨hdeleted, hnot⟩ := hi.1.alive hcalled
  have hdeleting : ∀ u, s.ghost.schedules.deleting ≠ some u := fun u hu =>
    absurd ((hi.1.deleting u hu).1.symm.trans hcalled) nofun
  refine ⟨⟨?_, fun hf => ?_⟩, ?_, trivial, rfl, hdeleted⟩
  · exact
      { hi.1 with
        waiting := fun h => by
          obtain ⟨hunapplied, x, hx⟩ := hi.1.waiting h
          exact ⟨hunapplied, x, { hx with }⟩
        deleting := fun u _ => ⟨rfl, hnot⟩
        alive := nofun }
  · exact { hi.2 hf with pending := fun h => { (hi.2 hf).pending h with } }
  · exact
      { Promise.refl s with
        owned := fun u _ h => ⟨h, rfl, fun h => h⟩
        deleting := fun u _ h => absurd h (hdeleting u) }

omit [DecidableEq κ] in
theorem outline_deletePublish :
    Spec (κ := κ) Inv Promise (fun _ _ => True) t (Deleting t false) (deletePublish t)
      fun _ _ => True := by
  refine .bind (M := fun _ s => True ∧ Deleting t true s) (.act
    (hosts.stable_of_steady steady_deleting) (fun _ => hosts.stable_of_steady steady_deleting)
    fun s x s' heq hi hs => ?_) fun _ => ?_
  · cases heq
    obtain ⟨-, hdeleting, hdeleted⟩ := hs
    obtain ⟨hcalled, hnot⟩ := hi.1.deleting t hdeleting
    have htag : (s.mem.tag.delete).deleted = true := by simp [Tag.delete, hdeleted]
    refine ⟨⟨?_, fun hf => ?_⟩, ?_, trivial, hdeleting, htag⟩
    · exact { hi.1 with alive := fun h => absurd (hcalled.symm.trans h) nofun }
    · exact { hi.2 hf with terminal := fun x hx h => absurd ⟨x, hx, h⟩ hnot }
    · exact
        { Promise.refl s with
          owned := fun u _ h => ⟨h, rfl, fun h => h⟩
          deleting := fun u hu h => absurd (Option.some.inj (h.symm.trans hdeleting)) hu }
  · refine .bind (M := fun _ _ => True ∧ True) ((hosts.outline_eventTimerPublishConfig
      fun _ => rfl).pre (hosts.stable_of_steady steady_deleting) fun s _ hs =>
        ⟨trivial, fun _ => hs.2⟩) fun _ => .ret stable_true fun s _ hs => hs

theorem outline_perform {call : Call} :
    Spec (κ := κ) Inv Promise (fun _ _ => True) t (fun s => Call.Possible s call) (perform t call)
      fun _ _ => True := by
  cases call with
  | publish period counter requiredGeneration =>
    have hpublish : Spec (κ := κ) Inv Promise (fun _ _ => True) t
        (fun s => false = true → Deleting t true s)
        (eventTimerPublishConfig t period counter requiredGeneration false) fun _ _ => True :=
      hosts.outline_eventTimerPublishConfig (fun h => absurd h (by simp))
    exact .bind (M := fun _ _ => True ∧ True) (hpublish.pre stable_true fun s _ _ =>
      ⟨trivial, fun h => absurd h (by simp)⟩) fun _ => .ret stable_true fun s _ hs => hs
  | signal timerGeneration tickCount => exact outline_eventTimerSignalClaimed
  | delete =>
    exact .bind outline_beginDelete fun _ => .bind outline_deletePublish fun _ =>
      .ret stable_true fun s _ hs => hs

theorem outline_thread (t : τ) :
    Outline (poolTerms (Inv (κ := κ)) Promise t) (fun _ => True ∧ True) (thread t)
      fun _ _ => True := by
  refine .loop (fun _ _ => True ∧ True) () (fun _ => ?_) fun _ => .pure _
  have hpossible : ∀ call : Call, Steady (κ := κ) t fun s => Call.Possible s call := by
    rintro (_ | _ | _)
    exacts [.pure True, fun _ _ _ _ _ _ hg h => hg.armedFor h, .pure True]
  refine .bind (M := fun call s => True ∧ Call.Possible s call) (.pick stable_true
    (fun call => hosts.stable_of_steady (hpossible call)) ?_) fun call =>
    .bind (outline_perform (t := t)) fun _ => .ret stable_true fun s _ hs => hs
  rintro _ call s ⟨rfl, hcall⟩ hi -
  exact ⟨hi, .refl _, trivial, hcall⟩

theorem Begins.inv_of_run {s : State κ τ} (hs : Begins s) {c : Concurrent.Config (State κ τ) τ}
    (hrun : Run ⟨s, thread⟩ c) : Inv c.shared :=
  invariant_of_outlines hs.inv (fun _ => ⟨trivial, trivial⟩) outline_thread hrun

/-! ### The account only grows -/

omit [DecidableEq κ] [DecidableEq τ] in
theorem Apart.grows (h : Apart s s') : Grows s s' :=
  .of_eq (by rw [h.schedules]) (by rw [h.schedules])

theorem grows_eventTimerSignalClaimed {timerGeneration tickCount : ℕ} :
    Within Grows (eventTimerSignalClaimed (κ := κ) t timerGeneration tickCount) := by
  refine .loop _ fun _ => .bind ((within_read fun _ _ => rfl).mono fun _ _ h => h.grows)
    fun old => ?_
  split
  · exact .ret _
  refine .bind ((timing_tick (t := t)).mono fun _ _ h => h.toGrows) ?_
  rintro ⟨won, seen⟩
  dsimp only
  split
  · split
    · exact .ret _
    refine .bind (timing_eventTimerProcessKernelOwner.mono fun _ _ h => h.toGrows) ?_
    rintro ⟨deliveryCount, deliveryGeneration⟩
    dsimp only
    split
    · refine .bind ((within_read fun _ _ => rfl).mono fun _ _ h => h.grows) fun callback =>
        .bind ?_ fun _ => .ret _
      split
      exacts [.ret _, within_eventCoroutineResume.mono fun _ _ h => h.grows]
    · exact .ret _
  · split
    exacts [.ret _, .ret _]

theorem grows_thread : Within Grows (thread (κ := κ) t) := by
  refine .loop _ fun _ => .bind (.pick fun s call s' hs => hs.1 ▸ .refl s) fun call =>
    .bind ?_ fun _ => .ret _
  have hpublish : ∀ period counter requiredGeneration terminal, Within Grows
      (eventTimerPublishConfig (κ := κ) t period counter requiredGeneration terminal) :=
    fun _ _ _ _ => timing_eventTimerPublishConfig.mono fun _ _ h => h.toGrows
  cases call with
  | publish period counter requiredGeneration => exact .bind (hpublish _ _ _ _) fun _ => .ret _
  | signal timerGeneration tickCount => exact grows_eventTimerSignalClaimed
  | delete =>
    refine .bind (.act fun s x s' heq => ?_) fun _ => .bind (.bind (.act fun s x s' heq => ?_)
      fun _ => .bind (hpublish _ _ _ _) fun _ => .ret _) fun _ => .ret _
    · dsimp only at heq
      split at heq
      · exact absurd heq nofun
      · cases heq
        exact .of_eq rfl rfl
    · cases heq
      exact .of_eq rfl rfl

/-- A schedule of one tick is published, and then a signal uses it up. -/
theorem exists_exhausted : ∃ s s' : State Unit Unit,
    (Steps (thread ()) (State.fresh false false) (thread ()) s ∧
      s.mem.control.owner = false ∧ s.mem.backend = some (1, 5) ∧
      s.ghost.schedules.publications = 1) ∧
    Steps (thread ()) s (thread ()) s' ∧
      s'.ghost.schedules.published = [⟨0, ⟨1, 5, 1⟩, false⟩] ∧
      s'.ghost.schedules.applied = [⟨0, ⟨1, 5, 1⟩, 1, true⟩] := by
  have hcalls : ∃ s s' : State Unit Unit, ∃ n,
      (Steps (eventTimerPublishConfig () 5 1 0 false) (State.fresh false false) (.ret n) s ∧
        s.mem.control.owner = false ∧ s.mem.backend = some (1, 5) ∧
        s.ghost.schedules.publications = 1) ∧
      (Steps (eventTimerSignalClaimed () 1 2) s (.ret ()) s' ∧
        1 ∈ s.ghost.schedules.armedFor) ∧
      s'.ghost.schedules.published = [⟨0, ⟨1, 5, 1⟩, false⟩] ∧
      s'.ghost.schedules.applied = [⟨0, ⟨1, 5, 1⟩, 1, true⟩] := by
    refine ⟨_, _, _, ⟨.loop (.seq (.seq (.act rfl) (.seq (.act rfl) (.seq (.act rfl) (.seq
        (.loop (.seq (.seq (.seq (.act rfl) (.seq (.act rfl) (.seq
          (.pick (x := ()) (Or.inl ⟨true, rfl⟩)) (.refl _ _)))) (.refl _ _))
          (Prog.steps_of_eval 2 rfl))) (.refl _ _))))) (.refl _ _)), ?_⟩,
      ⟨.loop (.seq (.seq (.act rfl) (.seq (.act rfl) (.seq
        (.loop (.seq (.seq (.act rfl) (.seq (.pick (x := (1, true)) ⟨2, rfl, rfl⟩)
          (Prog.steps_of_eval 2 rfl))) (Prog.steps_of_eval 2 rfl)))
        (Prog.steps_of_eval 3 rfl)))) (.refl _ _)), ?_⟩, ?_⟩
    exacts [⟨rfl, rfl, rfl⟩, .head _, ⟨rfl, rfl⟩]
  obtain ⟨s, s', n, ⟨hpublish, hfacts⟩, ⟨hsignal, harmed⟩, hfacts'⟩ := hcalls
  refine ⟨s, s', ⟨?_, hfacts⟩, ?_, hfacts'⟩
  · exact .loop (.seq (.seq (.pick (x := Call.publish 5 1 0) ⟨rfl, trivial⟩)
      (.seq (.seq hpublish (.refl _ _)) (.refl _ _))) (.refl _ _))
  · exact .loop (.seq (.seq (.pick (x := Call.signal 1 2) ⟨rfl, harmed⟩)
      (.seq hsignal (.refl _ _))) (.refl _ _))

omit [DecidableEq κ] [DecidableEq τ] in
theorem begins_fresh : Begins (κ := κ) (τ := τ) (State.fresh false false) :=
  ⟨⟨0, by decide, rfl, rfl⟩, nofun, rfl, rfl⟩

end Schedule

section Runs

open Schedule Ownership

variable {κ τ : Type} {s : State κ τ}

/-- While nobody owns the timer, the newest published configuration is applied. -/
theorem Ownership.Unique.applied_head (hu : Unique s) (howner : s.mem.control.owner = false) :
    s.ghost.schedules.applied.head?.map (·.config) =
      s.ghost.schedules.published.head?.map (·.config) := by
  refine hu.active ?_
  by_contra h
  have hpending := hu.pending (by simpa using h)
  exact absurd (hpending.owner.symm.trans howner) nofun

/-- While nobody owns the timer, it is armed for the newest published configuration or not at all. -/
theorem Ownership.Core.armed_at_rest (hi : Core s) (hu : Unique s)
    (howner : s.mem.control.owner = false) (hbackend : s.mem.backend ≠ none) :
    ∃ y, s.ghost.schedules.published.head? = some y ∧
      s.mem.backend = some (y.config.generation, y.config.period) ∧ y.config.period ≠ 0 ∧
      (y.config.counter = 0 ∨ s.ghost.schedules.spent < y.config.counter) ∧
      s.ghost.schedules.armSucceeded = true := by
  obtain ⟨x, state, hx⟩ := hi.sound.armed hbackend
  have happlied := hu.applied_head howner
  rw [show s.ghost.schedules.applied.head? = some x from hx.head] at happlied
  obtain ⟨y, hy, hconfig⟩ := Option.map_eq_some_iff.mp happlied.symm
  replace hconfig : y.config = x.config := hconfig
  refine ⟨y, hy, ?_⟩
  rw [hconfig]
  refine ⟨hx.backend, hx.period, ?_, hx.succeeded⟩
  -- A schedule that spent its counter has been counted in full, and then the timer is stopped.
  obtain ⟨-, -, hle, hstopped⟩ := hi.sound.head x hx.head
  have hcounted : x.counted = s.ghost.schedules.spent := (hi.rest howner).2 x hx.head
  rcases Nat.eq_zero_or_pos x.config.counter with hzero | hpos
  · exact .inl hzero
  · exact .inr ((hle hpos).lt_of_ne fun heq =>
      hbackend (hstopped hpos (hcounted.trans heq)))

/-- While nobody owns the timer, what the newest published configuration asks for is in force. -/
theorem Ownership.Unique.in_force (hu : Unique s) (howner : s.mem.control.owner = false)
    {y : Publication} (hy : s.ghost.schedules.published.head? = some y) (hperiod : y.config.period ≠ 0)
    (hcounter : y.config.counter = 0 ∨ s.ghost.schedules.spent < y.config.counter)
    (hsucceeded : s.ghost.schedules.armSucceeded = true) : s.mem.backend ≠ none := by
  have happlied := hu.applied_head howner
  rw [hy] at happlied
  obtain ⟨x, hx, hconfig⟩ := Option.map_eq_some_iff.mp happlied
  replace hconfig : x.config = y.config := hconfig
  rw [← hconfig] at hperiod hcounter
  exact hu.rest howner x hx hperiod hsucceeded hcounter

/-- The application of a publication has its counter. -/
theorem Ownership.Core.counter_eq (hi : Core s) {x : Publication} {y : Application}
    (hx : x ∈ s.ghost.schedules.published) (hy : y ∈ s.ghost.schedules.applied)
    (hnumber : y.number = x.number) : y.config.counter = x.config.counter := by
  obtain ⟨x', hx', hnumber', -, hcounter⟩ := hi.source y hy
  obtain rfl := List.inj_on_of_nodup_map hi.published hx' hx (hnumber'.trans hnumber)
  exact hcounter.symm

theorem Ownership.Core.delivered_le (hi : Core s) {x : Publication}
    (hx : x ∈ s.ghost.schedules.published) (hcounter : 0 < x.config.counter) :
    delivered s.ghost.schedules x.number ≤ x.config.counter := by
  by_cases happlied : ∃ y ∈ s.ghost.schedules.applied, y.number = x.number
  · obtain ⟨y, hy, hnumber⟩ := happlied
    rw [← hnumber, delivered_eq hi.applied hy, ← hi.counter_eq hx hy hnumber]
    exact hi.sound.bound y hy (by rwa [hi.counter_eq hx hy hnumber])
  · rw [delivered_eq_zero fun y hy heq => happlied ⟨y, hy, heq⟩]
    exact Nat.zero_le _

variable [DecidableEq κ] [DecidableEq τ] {c : Concurrent.Config (State κ τ) τ}

/-- **One owner, and the last configuration wins.** In every state with fewer than `2 ^ 32 - 1`
publications before it:

* one thread at most is the owner, and the owner bit is set exactly while there is one;
* no tick was added to a configuration, and what was applied was published;
* while the bit is clear, the backend is armed if and only if the newest published configuration
  has a period, has not used up its counter and its arm call succeeded, and then for its generation
  and period;
* nothing is published after the deletion's configuration, and with that one published and the bit
  clear the timer is not armed. -/
theorem last_publication_wins (hs : Begins s) (hrun : Run ⟨s, thread⟩ c)
    (hfew : c.shared.ghost.schedules.publications < 2 ^ 32 - 1) :
    c.shared.ghost.schedules.owners.length ≤ 1 ∧
    (c.shared.mem.control.owner = true ↔ c.shared.ghost.schedules.owners ≠ []) ∧
    c.shared.ghost.schedules.misplaced = false ∧
    (∀ y ∈ c.shared.ghost.schedules.applied, ∃ x ∈ c.shared.ghost.schedules.published,
      x.config = y.config) ∧
    (c.shared.mem.control.owner = false →
      (c.shared.mem.backend ≠ none ↔ ∃ x, c.shared.ghost.schedules.published.head? = some x ∧
        x.config.period ≠ 0 ∧
        (x.config.counter = 0 ∨ c.shared.ghost.schedules.spent < x.config.counter) ∧
        c.shared.ghost.schedules.armSucceeded = true) ∧
      ∀ generation period, c.shared.mem.backend = some (generation, period) →
        ∃ x, c.shared.ghost.schedules.published.head? = some x ∧
          x.config.generation = generation ∧ x.config.period = period) ∧
    ∀ x ∈ c.shared.ghost.schedules.published, x.terminal = true →
      c.shared.ghost.schedules.published.head? = some x ∧
      (c.shared.mem.control.owner = false → c.shared.mem.backend = none) := by
  have hi := (hs.inv_of_run hrun).1
  have hu := (hs.inv_of_run hrun).2 hfew
  refine ⟨?_, ?_, hu.misplaced, hu.applied, fun howner => ⟨⟨fun hbackend => ?_, ?_⟩, ?_⟩, ?_⟩
  · obtain ⟨-, t, ht⟩ | ⟨-, hnone⟩ := hi.owners
    · rw [ht]
      exact Nat.le_refl 1
    · rw [hnone]
      exact Nat.zero_le 1
  · obtain ⟨howner, t, ht⟩ | ⟨howner, hnone⟩ := hi.owners
    · simp [howner, ht]
    · simp [howner, hnone]
  · obtain ⟨y, hy, -, hperiod, hcounter, hsucceeded⟩ := hi.armed_at_rest hu howner hbackend
    exact ⟨y, hy, hperiod, hcounter, hsucceeded⟩
  · rintro ⟨y, hy, hperiod, hcounter, hsucceeded⟩
    exact hu.in_force howner hy hperiod hcounter hsucceeded
  · intro generation period hbackend
    obtain ⟨y, hy, harmed, -⟩ := hi.armed_at_rest hu howner (by simp [hbackend])
    obtain ⟨rfl, rfl⟩ := Prod.mk.inj (Option.some.inj (harmed.symm.trans hbackend))
    exact ⟨y, hy, rfl, rfl⟩
  · intro x hx hterminal
    obtain ⟨-, hhead, hperiod⟩ := hu.terminal x hx hterminal
    refine ⟨hhead, fun howner => ?_⟩
    by_contra hbackend
    obtain ⟨y, hy, -, hne, -⟩ := hi.armed_at_rest hu howner hbackend
    obtain rfl := Option.some.inj (hy.symm.trans hhead)
    exact hne hperiod

theorem last_publication_wins_start : ∃ c : Concurrent.Config (State Unit Unit) Unit,
    Run ⟨State.fresh false false, thread⟩ c ∧ c.shared.mem.control.owner = false ∧
      ∃ x, c.shared.ghost.schedules.published.head? = some x ∧
        x.config.generation = 1 ∧ x.config.period = 5 := by
  obtain ⟨s, -, ⟨hsteps, howner, hbackend, hpublications⟩, -⟩ := exists_exhausted
  have hrun : Run ⟨State.fresh false false, thread⟩ ⟨s, _⟩ := Run.of_steps (t := ()) hsteps
  refine ⟨_, hrun, howner, ?_⟩
  have hfew : s.ghost.schedules.publications < 2 ^ 32 - 1 := by
    rw [hpublications]
    decide
  exact ((last_publication_wins begins_fresh hrun hfew).2.2.2.2.1 howner).2 1 5 hbackend

/-- **A finite schedule never delivers too much.** Let `x` be a published configuration with a
counter.

* The ticks of `x` that kernel owners add to deliveries are at most its counter, and as many as its
  counter if its timer was stopped for having used it up.
* Once they reach the counter, the timer is not armed for `x`, and in whatever happens later no more
  of them are delivered.

Every tick that was drained came from a signal of the schedule it was drained for, and a
configuration is applied once at most, so that the ticks of one publication are never another's. -/
theorem never_over_delivers (hs : Begins s) (hrun : Run ⟨s, thread⟩ c) :
    (∀ x ∈ c.shared.ghost.schedules.published, 0 < x.config.counter →
      delivered c.shared.ghost.schedules x.number ≤ x.config.counter ∧
      (∀ y ∈ c.shared.ghost.schedules.applied, y.number = x.number → y.exhausted = true →
        delivered c.shared.ghost.schedules x.number = x.config.counter) ∧
      (delivered c.shared.ghost.schedules x.number = x.config.counter →
        (c.shared.mem.backend ≠ none →
          ∀ y, c.shared.ghost.schedules.applied.head? = some y → y.number ≠ x.number) ∧
        ∀ c', Run c c' → delivered c'.shared.ghost.schedules x.number = x.config.counter)) ∧
    (∀ y ∈ c.shared.ghost.schedules.applied, ∃ x ∈ c.shared.ghost.schedules.published,
      x.number = y.number ∧ x.config.generation = y.config.generation ∧
        x.config.counter = y.config.counter) ∧
    (c.shared.ghost.schedules.published.map Publication.number).Nodup ∧
    (c.shared.ghost.schedules.applied.map Application.number).Nodup ∧
    ∀ p ∈ c.shared.ghost.schedules.drainedFrom, p.1 = p.2 := by
  have hi := (hs.inv_of_run hrun).1
  refine ⟨fun x hx hcounter => ⟨hi.delivered_le hx hcounter, ?_, fun hdelivered => ⟨?_, ?_⟩⟩,
    hi.source, hi.published, hi.applied, hi.drained⟩
  · intro y hy hnumber hexhausted
    rw [← hnumber, delivered_eq hi.applied hy, ← hi.counter_eq hx hy hnumber]
    exact (hi.sound.exact y hy hexhausted).2
  · intro hbackend y hhead hnumber
    have hy : y ∈ c.shared.ghost.schedules.applied := List.mem_of_mem_head? hhead
    rw [← hnumber, delivered_eq hi.applied hy, ← hi.counter_eq hx hy hnumber] at hdelivered
    exact hbackend ((hi.sound.head y hhead).2.2.2 (by rwa [hi.counter_eq hx hy hnumber]) hdelivered)
  · intro c' hrun'
    have hgrows := (Within.run Grows.refl (fun _ _ _ => Grows.trans)
      (Within.run Grows.refl (fun _ _ _ => Grows.trans) (fun _ => grows_thread) hrun).2 hrun').1
    have hi' := (hs.inv_of_run (hrun.trans hrun')).1
    exact Nat.le_antisymm (hi'.delivered_le (hgrows.published hx) hcounter)
      (hdelivered.ge.trans (hgrows.delivered x.number))

theorem never_over_delivers_exhausted : ∃ c : Concurrent.Config (State Unit Unit) Unit,
    Run ⟨State.fresh false false, thread⟩ c ∧ delivered c.shared.ghost.schedules 0 = 1 ∧
      ∀ c', Run c c' → delivered c'.shared.ghost.schedules 0 = 1 := by
  obtain ⟨s, s', ⟨hsteps, -⟩, hsteps', hpublished, happlied⟩ := exists_exhausted
  have hrun : Run ⟨State.fresh false false, thread⟩ ⟨s', _⟩ :=
    Run.of_steps (t := ()) (Relation.ReflTransGen.trans hsteps hsteps')
  obtain ⟨-, hexact, hlast⟩ := (never_over_delivers begins_fresh hrun).1 ⟨0, ⟨1, 5, 1⟩, false⟩
    (by simp [hpublished]) (by decide)
  have hdelivered := hexact ⟨0, ⟨1, 5, 1⟩, 1, true⟩ (by simp [happlied]) rfl rfl
  exact ⟨_, hrun, hdelivered, (hlast hdelivered).2⟩

end Runs

end UserEvent

end Asyncio

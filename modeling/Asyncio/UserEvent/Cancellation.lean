import Asyncio.UserEvent.Cancel

/-!
# The functions that meet around the waiter word

Outlines over `Cancellation.Inv` for what can be called while the coroutine waits: resuming and
cancelling, the delivery of a doorbell, the signal of the timer, the deletion, and the two calls that
wait.
-/

namespace Asyncio

namespace UserEvent

set_option linter.unusedSectionVars false

open Concurrent List

namespace Cancellation

open Schedule

variable {κ τ : Type} [DecidableEq κ] [DecidableEq τ] {w t : τ} {k : κ} {first : ℕ} {d : Duty}

/-! ### Resuming and cancelling -/

theorem Waiter.coroutine_resume (count : ℕ) (low : Waiter κ) :
    (low.resume count).coroutine = none := by
  cases low <;> rfl

theorem spec_publish {period requiredGeneration : ℕ} {counter : ℤ} :
    Spec w k first t (At w t d)
      (eventTimerPublishConfig t period counter requiredGeneration false) fun _ => At w t d :=
  spec_timing timing_eventTimerPublishConfig stable_at fun _ _ hs h => h.timing hs

theorem spec_loadWaiter {P : State κ τ → Prop} (hP : Stable (poolTerms (Inv w k first) (Guar w) t) P):
    Spec w k first t P loadWaiter fun _ => P :=
  outline_look hP (fun _ => hP) (Guar.refl w t) fun _ _ hs => hs

/-- A thread's duties, and that the sentinel is there if `known` says so. -/
def Knows (w t : τ) (d : Duty) (known : Prop) (s : State κ τ) : Prop :=
  At w t d s ∧ (known → s.mem.waiter.low = .deleted)

theorem stable_knows {known : Prop} :
    Stable (poolTerms (Inv w k first) (Guar w) t) (Knows w t d known) :=
  stable_at.and (.imp fun _ => stable_sentinel)

variable {expected : WaiterWord κ}

/-- The waiter is taken out of the word by a compare-and-swap. -/
theorem spec_take (hexpected : expected.low ≠ .deleted)
    {desired : Waiter κ} (hdesired : desired.coroutine = none) {won : Ghost τ → Ghost τ}
    (hwon : ∀ g : Ghost τ, ∃ activations, won g =
      { g with activations := activations, deletion := g.deletion.take t expected.low } ∧
        activations.consumed = g.activations.consumed) :
    Spec w k first t (At w t d) (casWaiter expected desired won) fun r s =>
      (r.1 = true → ∀ j, expected.low.coroutine = some j → j = k) ∧
        Knows w t (if r.1 then d.take expected.low else d)
          ((if r.1 then desired else r.2.low) = .deleted) s := by
  refine outline_casWaiter stable_at (fun r => (Stable.pure _).and stable_knows) (Guar.refl w t)
    (fun s hi hs hword => ?_) fun s _ hs _ => ⟨nofun, hs, fun h => h⟩
  obtain ⟨activations, heq, hsame⟩ := hwon s.ghost
  rw [heq]
  subst hword
  exact ⟨Inv.take hi hdesired hsame, Guar.take hexpected hsame, fun _ => hi.only, At.take hs hsame,
    fun h => h⟩

/-- The end of a round of the loops that take the waiter out. -/
theorem spec_taken {won : Bool} {expected seen : WaiterWord κ} {desired : Waiter κ}
    (hcalling : d.calling = 0) :
    Spec w k first t (fun s => (won = true → ∀ j, expected.low.coroutine = some j → j = k) ∧
        Knows w t (if won then d.take expected.low else d)
          ((if won then desired else seen.low) = .deleted) s)
      (if won then do callTaken t expected.low; return .inr () else return .inl seen)
      (Sum.elim (fun seen => Knows w t d (seen.low = .deleted))
        fun _ : Unit => Knows w t d (desired = .deleted)) := by
  cases won with
  | true =>
    refine .obtain (R := fun _ : PLift (∀ j, expected.low.coroutine = some j → j = k) =>
      Knows w t (d.take expected.low) (desired = .deleted)) ((Stable.pure _).and stable_knows)
      (fun s _ hs => ⟨⟨hs.1 rfl⟩, hs.2⟩) fun hlow => ?_
    have hsentinel : Stable (poolTerms (Inv w k first) (Guar w) t)
        fun s : State κ τ => desired = .deleted → s.mem.waiter.low = .deleted :=
      .imp fun _ => stable_sentinel
    refine .bind ((spec_callTaken hlow.down hcalling).frame hsentinel
      fun s s' _ _ hg h heq => ?_) fun _ => .ret stable_knows fun s _ hs => hs
    rw [(hg.sentinel (h heq)).1]
    exact h heq
  | false => exact .ret ((Stable.pure _).and stable_knows) fun s _ hs => hs.2

theorem spec_eventCoroutineResume {count generation : ℕ} {manual : Bool} (hcalling : d.calling = 0) :
    Spec w k first t (At w t d) (eventCoroutineResume t count manual generation) fun _ =>
      At w t d := by
  refine .bind (spec_loadWaiter stable_at) fun expected => .loop (fun _ => At w t d) expected ?_
    fun _ => stable_at
  intro expected
  dsimp only
  split
  · exact .skip stable_at
  · next hne =>
    refine .bind (M := fun _ => At w t d) ?_ fun stale => ?_
    · split
      · exact .bind spec_publish fun _ => .skip stable_at
      · split
        · exact .bind (outline_look stable_at (fun _ => stable_at) (Guar.refl w t) fun _ _ hs => hs)
            fun _ => .skip stable_at
        · exact .skip stable_at
    · split
      · exact .skip stable_at
      · refine .bind (spec_take hne (Waiter.coroutine_resume _ _) fun _ => ⟨_, rfl, rfl⟩) ?_
        rintro ⟨won, seen⟩
        refine (spec_taken hcalling).post ?_
        rintro (_ | _) s _ hs
        · exact hs.1
        · exact hs.1

theorem spec_eventCoroutineCancel (hcalling : d.calling = 0) :
    Spec w k first t (At w t d) (eventCoroutineCancel t) fun _ => Knows w t d True := by
  refine .bind (M := fun old => Knows w t d (old.low = .deleted)) (outline_look stable_at
    (fun _ => stable_knows) (Guar.refl w t) fun s _ hs => ⟨hs, fun h => h⟩) fun old => .loop
    (fun old => Knows w t d (old.low = .deleted)) old ?_ fun _ => stable_knows
  intro old
  dsimp only
  split
  · next heq => exact .ret stable_knows fun s _ hs => ⟨hs.1, fun _ => hs.2 heq⟩
  · next hne =>
    refine .bind (.pre (spec_take hne rfl fun _ => ⟨_, rfl, rfl⟩) stable_knows
      fun s _ hs => hs.1) ?_
    rintro ⟨won, seen⟩
    refine (spec_taken hcalling).post ?_
    rintro (_ | _) s _ hs
    · exact hs
    · exact ⟨hs.1, fun _ => hs.2 rfl⟩

/-! ### The cancellation -/

theorem At.busy {s : State κ τ} (h : At w t d s) (hbusy : d.busy ≠ 0) :
    t ∈ s.ghost.deletion.busy := by
  obtain rfl : duty w s t = d := h
  exact count_pos_iff.mp (Nat.pos_of_ne_zero hbusy)

theorem spec_eventActivateCancellation (hstored : d.stored = 0) (hbusy : d.busy ≠ 0) :
    Spec w k first t (At w t d) (eventActivateCancellation t) fun _ =>
      At w t { d with owing := d.owing - 1 } := by
  refine .bind (M := fun _ => At w t { d with owing := d.owing - 1, stored := 1 })
    (outline_instr stable_at (fun _ => stable_at) fun s hi hs => ?_) fun _ =>
    outline_instr stable_at (fun _ => stable_at) fun s hi hs => ?_
  · have hin := hs.busy hbusy
    obtain rfl : duty w s t = d := hs
    refine ⟨{ hi with
        inside := ?_
        pending := fun _ _ => .inr (.inr (.inr ⟨nofun, .inr (.inl nofun)⟩)) },
      { Guar.refl w t s with
        duty := fun u hu => by simp [duty, Ghost.onDeletion, count_erase_of_ne hu, hu.symm] },
      by simp [At, duty, Ghost.onDeletion, show s.ghost.deletion.stored.count t = 0 from hstored]⟩
    have hinside := hi.inside
    grind [Ghost.onDeletion, mem_of_mem_erase]
  · refine ⟨{ hi with
        inside := ?_
        pending := fun hdeleted hne => ?_ }, { Guar.refl w t s with
        duty := fun u hu => by simp [duty, Ghost.onDeletion, count_erase_of_ne hu] }, ?_⟩
    · have hinside := hi.inside
      grind [Ghost.onDeletion, mem_of_mem_erase]
    · rcases hi.pending hdeleted hne with h | h | h | h
      · exact .inl h
      · exact .inr (.inl h)
      · exact .inr (.inr (.inl h))
      · exact .inr (.inr (.inr ⟨h.1, .inl rfl⟩))
    · refine .trans (b := { duty w s t with stored := (duty w s t).stored - 1 }) ?_ ?_
      · simp [duty, Ghost.onDeletion]
      · rw [show duty w s t = _ from hs]
        simp [hstored]

theorem spec_eventProcessCancellation (hcalling : d.calling = 0) (hcancelling : d.cancelling ≠ 0) :
    Spec w k first t (At w t d) (eventProcessCancellation t) fun _ => Knows w t d True := by
  refine .bind (outline_instr stable_at (fun _ => stable_at) fun s hi hs => ⟨{ hi with
      pending := fun _ _ => .inr (.inr (.inl ?_)) }, { Guar.refl w t s with }, hs⟩) fun _ =>
    spec_eventCoroutineCancel hcalling
  obtain rfl : duty w s t = d := hs
  exact ne_nil_of_mem (count_pos_iff.mp (Nat.pos_of_ne_zero hcancelling))

/-- The delivery of a doorbell. -/
theorem spec_eventManualReady (hbusy : d.busy ≠ 0) (hcalling : d.calling = 0)
    (hcancelling : d.cancelling = 0) :
    Spec w k first t (At w t d) (eventManualReady t) fun _ s => ∃ cancelled : Bool,
      Knows w t { d with consumed := d.consumed - 1, cancelling := cancelled.toNat }
        (cancelled = true) s := by
  refine .bind (M := fun count => At w t { d with
      consumed := d.consumed - 1
      cancelling := if count ≠ 0 then 1 else 0 }) (outline_instr stable_at (fun _ => stable_at)
    fun s hi hs => ?_) fun count => ?_
  · have hin := hs.busy hbusy
    obtain rfl : duty w s t = d := hs
    have hinside := hi.inside
    have hzero : s.ghost.deletion.cancelling.count t = 0 := hcancelling
    refine ⟨{ hi with
        inside := by grind [mem_of_mem_erase]
        pending := fun hdeleted hne => ?_ }, { Guar.refl w t s with
        duty := fun u hu => ?_ }, ?_⟩
    · by_cases hsignal : s.mem.signalState = 0
      · rcases hi.pending hdeleted hne with h | h | h | h
        · exact .inl h
        · exact .inr (.inl h)
        · exact .inr (.inr (.inl (by simpa [hsignal] using h)))
        · exact absurd hsignal h.1
      · exact .inr (.inr (.inl (by simp [hsignal])))
    · by_cases hsignal : s.mem.signalState = 0
      · simp [duty, hsignal, count_erase_of_ne hu]
      · simp [duty, hsignal, count_erase_of_ne hu, hu.symm]
    · by_cases hsignal : s.mem.signalState = 0
      · simp [At, duty, hsignal, hzero]
      · simp [At, duty, hsignal, hzero]
  · by_cases hcount : count = 0
    · rw [if_pos hcount]
      exact .ret stable_at fun s _ hs => ⟨false, by simpa [hcount] using hs, by rintro ⟨⟩⟩
    · rw [if_neg hcount, if_pos hcount]
      refine .bind (M := fun callback s => callback = false ∧
        At w t { d with consumed := d.consumed - 1, cancelling := 1 } s)
        (outline_look stable_at (fun _ => (Stable.pure _).and stable_at) (Guar.refl w t)
          fun s hi hs => ⟨hi.callback, hs⟩) fun callback => .assume stable_at ?_
      rintro rfl
      rw [if_neg Bool.false_ne_true]
      refine .bind (M := fun deleting => At w t { d with
          consumed := d.consumed - 1
          cancelling := if deleting then 1 else 0 })
        (outline_read stable_at (fun _ => stable_at) fun s hi hs => ?_) fun deleting => ?_
      · have hinside := hi.inside
        refine ⟨{ hi with
            inside := by grind [Ghost.onDeletion, mem_of_mem_erase]
            pending := fun hdeleted hne => ?_ }, { Guar.refl w t s with
            duty := fun u hu => ?_ }, ?_⟩
        · replace hdeleted : s.mem.tag.deleted = true := hdeleted
          simpa [Pending, Ghost.onDeletion, hdeleted] using hi.pending hdeleted hne
        · cases hdeleted : s.mem.tag.deleted with
          | true => simp [duty, Ghost.onDeletion]
          | false => simp [duty, Ghost.onDeletion, count_erase_of_ne hu]
        · refine .trans (b := { duty w s t with
            cancelling := (duty w s t).cancelling - if s.mem.tag.deleted then 0 else 1 }) ?_ ?_
          · cases hdeleted : s.mem.tag.deleted with
            | true => simp [duty, Ghost.onDeletion]
            | false => simp [duty, Ghost.onDeletion]
          · rw [show duty w s t = _ from hs]
            cases s.mem.tag.deleted <;> rfl
      · cases deleting with
        | true =>
          rw [if_pos rfl]
          refine .post (spec_eventProcessCancellation ?_ ?_) fun _ s _ hs =>
            ⟨true, hs.1, fun _ => hs.2 trivial⟩
          · exact hcalling
          · rintro ⟨⟩
        | false =>
          rw [if_neg Bool.false_ne_true]
          refine .post (spec_eventCoroutineResume ?_) fun _ s _ hs => ⟨false, hs, by rintro ⟨⟩⟩
          exact hcalling

/-! ### Calls -/

/-- A call begins. -/
theorem spec_enter {P : State κ τ → Prop} (hP : Stable (poolTerms (Inv w k first) (Guar w) t) P)
    (hkeep : ∀ s f, P s → P ⟨s.mem, s.ghost.onDeletion f⟩) :
    Spec w k first t (fun s => At w t d s ∧ P s) (enter t) fun _ s =>
      At w t { d with busy := d.busy + 1 } s ∧ P s := by
  refine outline_instr (stable_at.and hP) (fun _ => stable_at.and hP) fun s hi hs => ?_
  obtain ⟨rfl, hp⟩ : duty w s t = d ∧ P s := hs
  exact ⟨{ hi with inside := fun u hu => .tail _ (hi.inside u hu) }, { Guar.refl w t s with
      duty := fun u hu => by simp [duty, Ghost.onDeletion, hu.symm] },
    by simp [At, duty, Ghost.onDeletion], hkeep s _ hp⟩

/-- Nothing is left to `t` but references. -/
structure Duty.Done (d : Duty) : Prop where
  installing : d.installing = 0
  owing : d.owing = 0
  stored : d.stored = 0
  consumed : d.consumed = 0
  cancelling : d.cancelling ≤ 1

/-- Who leaves a call answers for nothing, unless the sentinel is there. -/
theorem spec_leave (hdone : d.Done) :
    Spec w k first t (Knows w t d (d.cancelling ≠ 0)) (leave t) fun _ =>
      At w t { d with busy := d.busy - 1, cancelling := d.cancelling - 1 } := by
  refine outline_instr stable_knows (fun _ => stable_at) fun s hi hs => ?_
  obtain ⟨rfl, hsentinel⟩ : duty w s t = d ∧ _ := hs
  have hinside := hi.inside
  have hinstalling := count_eq_zero.mp hdone.installing
  have howing := count_eq_zero.mp hdone.owing
  have hstored := count_eq_zero.mp hdone.stored
  have hconsumed := count_eq_zero.mp hdone.consumed
  have hcancelling : t ∉ s.ghost.deletion.cancelling.erase t := by
    rw [← count_eq_zero, count_erase_self]
    exact Nat.sub_eq_zero_of_le hdone.cancelling
  refine ⟨{ hi with
      inside := fun u hu => ?_
      pending := fun hdeleted hne => ?_ }, { Guar.refl w t s with
      duty := fun u hu => by simp [duty, Ghost.onDeletion, count_erase_of_ne hu] },
    by simp [At, duty, Ghost.onDeletion]⟩
  · have hut : u ≠ t := by
      rintro rfl
      simp_all [Ghost.onDeletion]
    refine (mem_erase_of_ne hut).mpr (hi.inside u ?_)
    exact hu.imp id (Or.imp id (Or.imp id (Or.imp (mem_of_mem_erase ·) id)))
  · have hzero : (duty w s t).cancelling = 0 := by
      by_contra hcount
      exact hne (by simp [hsentinel hcount, Waiter.coroutine])
    have hsame : s.ghost.deletion.cancelling.erase t = s.ghost.deletion.cancelling :=
      erase_of_not_mem (count_eq_zero.mp hzero)
    simpa [Pending, Ghost.onDeletion, hsame] using hi.pending hdeleted hne

theorem spec_isDeleting :
    Spec w k first t (At w t d) (eventReferenceIsDeleting fun _ => id) fun _ => At w t d :=
  outline_look stable_at (fun _ => stable_at) (Guar.refl w t) fun _ _ hs => hs

theorem spec_userEventStartTimer {usTimeout : ℕ} {counter : ℤ} :
    Spec w k first t (At w t d) (userEventStartTimer t usTimeout counter) fun _ => At w t d := by
  refine .bind spec_isDeleting fun deleting => ?_
  split
  · exact .skip stable_at
  · exact .bind spec_publish fun _ => .skip stable_at

theorem spec_userEventStopTimer :
    Spec w k first t (At w t d) (userEventStopTimer t) fun _ => At w t d := by
  refine .bind spec_isDeleting fun deleting => ?_
  split
  · exact .skip stable_at
  · exact .bind spec_publish fun _ => .skip stable_at

theorem spec_userEventActivate :
    Spec w k first t (At w t d) (userEventActivate t) fun _ => At w t d := by
  refine .bind spec_isDeleting fun deleting => ?_
  split
  · exact .skip stable_at
  refine .bind (M := fun _ => At w t d) (outline_instr stable_at (fun _ => stable_at)
    fun s hi hs => ⟨{ hi with pending := fun hdeleted hne => ?_ }, { Guar.refl w t s with }, hs⟩)
    fun old => ?_
  · rcases hi.pending hdeleted hne with h | h | h | h
    · exact .inl h
    · exact .inr (.inl h)
    · exact .inr (.inr (.inl h))
    · refine .inr (.inr (.inr ⟨?_, h.2⟩))
      dsimp only
      split <;> omega
  · split
    · refine outline_instr stable_at (fun _ => stable_at) fun s hi hs =>
        ⟨{ hi with pending := fun hdeleted hne => ?_ }, { Guar.refl w t s with }, hs⟩
      rcases hi.pending hdeleted hne with h | h | h | h
      · exact .inl h
      · exact .inr (.inl h)
      · exact .inr (.inr (.inl h))
      · exact .inr (.inr (.inr ⟨h.1, .inl rfl⟩))
    · exact .skip stable_at

theorem spec_eventTimerSignalClaimed {timerGeneration tickCount : ℕ} (hcalling : d.calling = 0) :
    Spec w k first t (At w t d) (eventTimerSignalClaimed t timerGeneration tickCount) fun _ =>
      At w t d := by
  refine .loop (fun _ => At w t d) () ?_ fun _ => stable_at
  intro _
  have hkeep {β : Type} {p : Prog (State κ τ) β} (hp : Within (Timing false) p) :
      Spec w k first t (At w t d) p fun _ => At w t d :=
    spec_timing hp stable_at fun _ _ hs h => h.timing hs
  refine .bind (hkeep timing_read) fun old => ?_
  dsimp only
  split
  · exact .skip stable_at
  refine .bind (hkeep timing_tick) ?_
  rintro ⟨won, seen⟩
  dsimp only
  split
  · split
    · exact .skip stable_at
    refine .bind (hkeep timing_eventTimerProcessKernelOwner) ?_
    rintro ⟨deliveryCount, deliveryGeneration⟩
    dsimp only
    split
    · refine .bind (hkeep timing_read) fun callback => .bind (M := fun _ => At w t d) ?_ fun _ =>
        .skip stable_at
      split
      · exact .skip stable_at
      · exact spec_eventCoroutineResume hcalling
    · exact .skip stable_at
  · split
    · exact .skip stable_at
    · exact .skip stable_at

theorem spec_eventTimerSignal {timerGeneration eventGeneration tickCount : ℕ}
    (hcalling : d.calling = 0) (hconsumed : d.consumed = 0) (hwaiting : d.waiting = false) :
    Spec w k first t (At w t d) (eventTimerSignal t timerGeneration eventGeneration tickCount)
      fun _ => At w t d := by
  refine .bind (outline_look stable_at (fun _ => stable_at) (Guar.refl w t) fun _ _ hs => hs)
    fun incarnation => ?_
  split
  · exact .skip stable_at
  refine .bind (spec_eventTryClaimReference (.inl hconsumed)) fun claimed => ?_
  cases claimed with
  | true =>
    refine .bind (.post (spec_eventTimerSignalClaimed ?_) fun _ _ _ hs => hs) fun _ =>
      .post (spec_eventDecrementReference ?_ ?_) fun _ _ _ hs => hs
    · exact hcalling
    · rintro ⟨⟩
    · exact hwaiting
  | false =>
    refine .ret stable_at fun s _ hs => ?_
    have hsame : { d with consumed := d.consumed - 1 } = d := by
      cases d
      simp only at hconsumed
      subst hconsumed
      rfl
    rw [← hsame]
    exact hs

/-! ### The deletion -/

/-- Nobody but `t` is before the deletion's own publication. -/
structure Sole (t : τ) (s : State κ τ) : Prop where
  called : s.ghost.schedules.deleteCalled = true
  deleting : ∀ u, u ≠ t → s.ghost.schedules.deleting ≠ some u

theorem stable_sole : Stable (poolTerms (Inv w k first) (Guar w) t) (Sole (κ := κ) t) := by
  rintro s s' - - ⟨u, hu, hg⟩ hs
  obtain ⟨hcalled, hdeleting⟩ := hg.called hs.called
  exact ⟨hcalled, fun v hv h => hs.deleting v hv (hdeleting v h)⟩

theorem spec_deletePublish (hbusy : d.busy ≠ 0) (howing : d.owing = 0) :
    Spec w k first t (fun s => At w t d s ∧ Deleting t s) (deletePublish t) fun old =>
      At w t { d with owing := if old.committed then 1 else 0 } := by
  refine .bind (M := fun old s =>
    At w t { d with owing := if old.committed then 1 else 0 } s ∧ Sole t s)
    (outline_instr (stable_at.and stable_deleting) (fun _ => stable_at.and stable_sole)
      fun s hi hs => ?_) fun old => .bind (M := fun _ s =>
    At w t { d with owing := if old.committed then 1 else 0 } s ∧ Sole t s) ?_ fun _ =>
      .ret (stable_at.and stable_sole) fun s _ hs => hs.1
  · obtain ⟨hat, hdeleting, hdeleted, hcalled⟩ := hs
    have hin := hat.busy hbusy
    obtain rfl : duty w s t = d := hat
    have hcallback : s.mem.hasCallback = false := hi.callback
    have hinside := hi.inside
    have hzero : s.ghost.deletion.owing.count t = 0 := howing
    refine ⟨{ hi with
        deleted := fun _ => hcalled
        inside := by grind [Ghost.onDeletion]
        pending := fun _ hne => ?_ }, { Guar.refl w t s with
        duty := fun u hu => ?_
        deleted := fun h => absurd (hdeleted.symm.trans h) Bool.false_ne_true
        deleting := fun u hu h => absurd (Option.some.inj (hdeleting.symm.trans h)) hu.symm },
      ?_, hcalled, fun u hu h => hu (Option.some.inj (h.symm.trans hdeleting))⟩
    · rcases hi.committed hne with hw | hcommitted
      · exact .inl (ne_nil_of_mem hw)
      · exact .inr (.inl (by simp [Ghost.onDeletion, hcallback, hcommitted]))
    · cases hcommitted : s.mem.tag.committed with
      | true => simp [duty, Ghost.onDeletion, Tag.delete, hcallback, hcommitted, hu.symm]
      | false => simp [duty, Ghost.onDeletion, Tag.delete, hcommitted]
    · cases hcommitted : s.mem.tag.committed with
      | true => simp [At, duty, Ghost.onDeletion, Tag.delete, hcallback, hcommitted, hzero]
      | false => simp [At, duty, Ghost.onDeletion, Tag.delete, hcommitted, hzero]
  · refine timing_eventTimerPublishConfig.outline (stable_at.and stable_sole) fun s s' h hi hs =>
      ⟨Inv.timing hi h, .timing h fun _ => hs.2.deleting, hs.1.timing h, ?_⟩
    refine ⟨h.deleteCalled.trans hs.2.called, fun u hu hd => ?_⟩
    rcases h.deleting with hsame | ⟨-, hnone⟩
    · exact hs.2.deleting u hu (hsame.symm.trans hd)
    · exact absurd (hnone.symm.trans hd) (Option.some_ne_none _).symm

theorem spec_deleteUserEvent (hbusy : d.busy ≠ 0) (howing : d.owing = 0) (hstored : d.stored = 0)
    (hheld : d.held ≠ 0) (hwaiting : d.waiting = false) :
    Spec w k first t (fun s => At w t d s ∧ Deleting t s) (deleteUserEvent t) fun _ =>
      At w t { d with held := d.held - 1 } := by
  refine .bind (spec_deletePublish hbusy howing) fun old => .bind (M := fun callback s =>
    callback = false ∧ At w t { d with owing := if old.committed then 1 else 0 } s)
    (outline_look stable_at (fun _ => (Stable.pure _).and stable_at) (Guar.refl w t)
      fun s hi hs => ⟨hi.callback, hs⟩) fun callback => .assume stable_at ?_
  rintro rfl
  have hsame : { d with owing := 0 } = d := by
    cases d
    simp only at howing
    rw [howing]
  refine .bind (M := fun _ => At w t d) ?_ fun _ => spec_eventDecrementReference hheld hwaiting
  cases old.committed with
  | true =>
    refine .post (spec_eventActivateCancellation ?_ ?_) fun _ s _ hs => ?_
    · exact hstored
    · exact hbusy
    · exact hsame ▸ hs
  | false => exact .ret stable_at fun s _ hs => hsame ▸ hs

/-! ### Waiting -/

/-- Inside a call, with one reference. -/
def Duty.inCall : Duty := { Duty.idle with busy := 1, held := 1 }

/-- The same with an installed waiter. -/
def Duty.installed : Duty := { Duty.inCall with committed := true, waiting := true }

/-- The waiter goes into the word. -/
theorem spec_install (hexpected : expected.low = .credits 0)
    {waiter : Waiter κ} (hwaiter : waiter.coroutine = some k) :
    Spec w k first w (At w w .inCall) (casWaiter expected waiter (.onDeletion fun g =>
      { g with installs := g.installs + 1, installing := w :: g.installing, waiting := true }))
      fun r => At w w (if r.1 then { Duty.inCall with installing := 1, waiting := true }
        else .inCall) := by
  refine outline_casWaiter stable_at (fun r => stable_at) (Guar.refl w w) (fun s hi hs hword => ?_)
    fun s _ hs _ => hs
  subst hword
  have hin := hs.busy Nat.one_ne_zero
  have hheld : w ∈ s.ghost.life.held :=
    count_pos_iff.mp (by rw [show s.ghost.life.held.count w = 1 from congrArg Duty.held hs]; decide)
  have hwaiting : s.ghost.deletion.waiting = false := by
    simpa [duty, Duty.inCall, Duty.idle] using congrArg Duty.waiting hs
  have hinside := hi.inside
  have hcalls := hi.calls
  rw [hexpected, hwaiting] at hcalls
  refine ⟨{ hi with
      only := fun j hj => (Option.some.inj (hwaiter.symm.trans hj)).symm
      holds := fun _ => hheld
      committed := fun _ => .inl (.head _)
      inside := by grind [Ghost.onDeletion]
      pending := fun _ _ => .inl (cons_ne_nil _ _)
      calls := ?_
      installed := fun i hm => (hi.installed i hm).trans (Nat.le_succ _)
      fresh := fun _ hm => Nat.not_succ_le_self _ (hi.installed _ hm) }, { Guar.refl w w s with
      duty := fun u hu => by simp [duty, Ghost.onDeletion, hu, hu.symm]
      sentinel := fun h => absurd (hexpected.symm.trans h) (by rintro ⟨⟩) }, ?_⟩
  · show s.mem.wakeups k + s.ghost.deletion.calling.length +
      (if waiter.coroutine = none then 0 else 1) = 1
    rw [hwaiter]
    simpa [Waiter.coroutine] using hcalls
  · refine .trans (b := { duty w s w with
      installing := (duty w s w).installing + 1, waiting := true }) ?_ ?_
    · simp [duty, Ghost.onDeletion]
    · rw [show duty w s w = _ from hs]
      rfl

/-- The waiter is committed, and its thread sees a deletion that came first. -/
theorem spec_commit :
    Spec w k first w (At (κ := κ) w w { Duty.inCall with installing := 1, waiting := true })
      (updateTag Tag.commit fun m => .onDeletion fun g =>
        { g with
          installing := g.installing.erase w
          owing := if m.tag.deleted then w :: g.owing else g.owing })
      fun old => At w w { Duty.installed with owing := if old.deleted then 1 else 0 } := by
  refine outline_instr stable_at (fun _ => stable_at) fun s hi hs => ?_
  have hin := hs.busy nofun
  have hcommitted : s.mem.tag.committed = false := by
    simpa [duty, Duty.inCall, Duty.idle] using congrArg Duty.committed hs
  have hinside := hi.inside
  have hdeleted : s.mem.tag.commit.deleted = s.mem.tag.deleted := by simp [Tag.commit, hcommitted]
  refine ⟨{ hi with
      deleted := fun h => hi.deleted (hdeleted ▸ h)
      committed := fun _ => .inr (by simp [Tag.commit, hcommitted])
      inside := by grind [Ghost.onDeletion, mem_of_mem_erase]
      pending := fun h _ => .inr (.inl ?_) }, { Guar.refl w w s with
      duty := fun u hu => ?_
      deleted := fun h => hdeleted.trans h
      deleting := fun u hu h => ⟨h, hdeleted⟩ }, ?_⟩
  · simp [Ghost.onDeletion, show s.mem.tag.deleted = true from hdeleted ▸ h]
  · cases h : s.mem.tag.deleted with
    | true => simp [duty, Ghost.onDeletion, hu, hu.symm, count_erase_of_ne hu]
    | false => simp [duty, Ghost.onDeletion, hu, count_erase_of_ne hu]
  · refine .trans (b := { duty w s w with
      installing := (duty w s w).installing - 1
      owing := (duty w s w).owing + if s.mem.tag.deleted then 1 else 0
      committed := true }) ?_ ?_
    · cases h : s.mem.tag.deleted with
      | true => simp [duty, Ghost.onDeletion, h, Tag.commit, hcommitted]
      | false => simp [duty, Ghost.onDeletion, h, Tag.commit, hcommitted]
    · rw [show duty w s w = _ from hs]
      simp [Duty.inCall, Duty.installed, Duty.idle]

/-- A credit is taken. -/
theorem spec_takeCredit {n : ℕ} (hexpected : expected.low = .credits (n + 1))
    {won : Ghost τ → Ghost τ} (hwon : ∀ g : Ghost τ, ∃ activations,
      won g = { g with activations := activations } ∧
        activations.consumed = g.activations.consumed) :
    Spec w k first t (At w t d) (casWaiter expected (.credits n) won) fun _ => At w t d := by
  refine outline_casWaiter stable_at (fun _ => stable_at) (Guar.refl w t) (fun s hi hs hword => ?_)
    fun s _ hs _ => hs
  obtain ⟨activations, heq, hsame⟩ := hwon s.ghost
  rw [heq]
  subst hword
  have hnone : s.mem.waiter.low.coroutine = none := by rw [hexpected]; rfl
  refine ⟨{ hi with
      only := nofun
      committed := fun h => absurd rfl h
      inside := fun u hu => hi.inside u (hsame ▸ hu)
      pending := fun _ h => absurd rfl h
      calls := ?_
      fresh := fun h => absurd rfl h }, { Guar.refl w t s with
      duty := fun u hu => by simp [duty, hsame]
      sentinel := fun h => absurd (hexpected.symm.trans h) nofun }, ?_⟩
  · have hcalls := hi.calls
    rw [hnone] at hcalls
    exact hcalls
  · rw [← show duty w s t = d from hs]
    simp [At, duty, hsame]

/-- Where the code aborts. -/
theorem spec_abort {β : Type} {Q : β → State κ τ → Prop}
    (hQ : ∀ y, Stable (poolTerms (Inv w k first) (Guar w) t) (Q y)) :
    Spec w k first t (At w t d) (.act fun _ => none) Q :=
  .act stable_at hQ fun _ _ _ heq => nomatch heq

theorem spec_eventInstallWaiter {waiter : Waiter κ} (hwaiter : waiter.coroutine = some k) :
    Spec w k first w (At w w .inCall) (eventInstallWaiter w waiter) fun installed =>
      At w w (if installed then .installed else .inCall) := by
  refine .bind (spec_loadWaiter stable_at) fun expected =>
    .loop (fun _ => At w w .inCall) expected ?_ fun _ => stable_at
  intro expected
  dsimp only
  split
  · exact .skip stable_at
  · next hexpected =>
    refine .bind (spec_install hexpected hwaiter) ?_
    rintro ⟨won, seen⟩
    cases won with
    | true =>
      refine .bind (.post spec_commit fun _ _ _ hs => hs) fun old => .bind
        (M := fun _ => At w w .installed) ?_ fun _ => .skip stable_at
      cases old.deleted with
      | true => exact .post (spec_eventActivateCancellation rfl (by rintro ⟨⟩)) fun _ _ _ hs => hs
      | false => exact .skip stable_at
    | false => exact .skip stable_at
  · next n hexpected =>
    refine .bind (spec_takeCredit hexpected fun _ => ⟨_, rfl, rfl⟩) ?_
    rintro ⟨won, seen⟩
    cases won with
    | true => exact .skip stable_at
    | false => exact .skip stable_at
  · exact spec_abort (Sum.rec (fun _ => stable_at) fun _ => stable_at)
  · exact spec_abort (Sum.rec (fun _ => stable_at) fun _ => stable_at)

theorem spec_consumeCredit :
    Spec w k first t (At w t d) (consumeCredit (κ := κ)) fun _ => At w t d := by
  refine .bind (spec_loadWaiter stable_at) fun expected =>
    .loop (fun _ => At w t d) expected ?_ fun _ => stable_at
  intro expected
  dsimp only
  split
  · exact .skip stable_at
  · exact .skip stable_at
  · next n hexpected =>
    refine .bind (spec_takeCredit hexpected fun _ => ⟨_, rfl, rfl⟩) ?_
    rintro ⟨won, seen⟩
    cases won with
    | true => exact .skip stable_at
    | false => exact .skip stable_at
  · exact spec_abort (Sum.rec (fun _ => stable_at) fun _ => stable_at)
  · exact spec_abort (Sum.rec (fun _ => stable_at) fun _ => stable_at)

/-- The coroutine is off until somebody calls it, and then its waiter is not in the word. -/
theorem spec_coroutineYield :
    Spec w k first w (At w w .installed) (coroutineYield w k) fun _ =>
      At w w { Duty.inCall with committed := true } := by
  refine .bind (M := fun _ => At w w { Duty.installed with busy := 0 })
    (outline_instr stable_at (fun _ => stable_at) fun s hi hs => ?_) fun _ =>
    .act stable_at (fun _ => stable_at) fun s x s' heq hi hs => ?_
  · have hduty : duty w s w = .installed := hs
    have hnot (l : List τ) (h : l.count w = 0) : w ∉ l := count_eq_zero.mp h
    have hinside := hi.inside
    have hinstalling := hnot _ (congrArg Duty.installing hduty)
    have howing := hnot _ (congrArg Duty.owing hduty)
    have hstored := hnot _ (congrArg Duty.stored hduty)
    have hcancelling := hnot _ (congrArg Duty.cancelling hduty)
    have hconsumed := hnot _ (congrArg Duty.consumed hduty)
    refine ⟨{ hi with inside := ?_ }, { Guar.refl w w s with
        duty := fun u hu => by simp [duty, Ghost.onDeletion, count_erase_of_ne hu] }, ?_⟩
    · intro u hu
      have huw : u ≠ w := by
        rintro rfl
        simp_all [Ghost.onDeletion]
      exact (mem_erase_of_ne huw).mpr (hi.inside u hu)
    · refine .trans (b := { duty w s w with busy := (duty w s w).busy - 1 }) ?_ ?_
      · simp [duty, Ghost.onDeletion]
      · rw [hduty]
        rfl
  · have hduty : duty w s w = { Duty.installed with busy := 0 } := hs
    have hwaiting : s.ghost.deletion.waiting = true := by
      simpa [duty, Duty.installed] using congrArg Duty.waiting hduty
    split at heq
    · cases heq
    · next hne =>
      cases heq
      have hcalls := hi.calls
      rw [if_pos hwaiting] at hcalls
      refine ⟨{ hi with
          holds := by rintro ⟨⟩
          inside := fun u hu => .tail _ (hi.inside u hu)
          calls := ?_ }, { Guar.refl w w s with
          duty := fun u hu => by simp [duty, Ghost.onDeletion, hu, hu.symm] }, ?_⟩
      · show Function.update s.mem.wakeups k (s.mem.wakeups k - 1) k +
          s.ghost.deletion.calling.length + (if s.mem.waiter.low.coroutine = none then 0 else 1) = 0
        rw [Function.update_self]
        omega
      · refine .trans (b := { duty w s w with
          busy := (duty w s w).busy + 1, waiting := false }) ?_ ?_
        · simp [duty, Ghost.onDeletion]
        · rw [hduty]
          rfl

theorem spec_eventFinishWaiter :
    Spec w k first w (At (κ := κ) w w { Duty.inCall with committed := true }) eventFinishWaiter
      fun _ => At w w .inCall := by
  refine .bind (M := fun _ => At w w .inCall) (outline_instr stable_at (fun _ => stable_at)
    fun s hi hs => ?_) fun _ => .skip stable_at
  have hduty : duty w s w = { Duty.inCall with committed := true } := hs
  have hcommitted : s.mem.tag.committed = true := by
    simpa [duty] using congrArg Duty.committed hduty
  have hwaiting : s.ghost.deletion.waiting = false := by
    simpa [duty, Duty.inCall, Duty.idle] using congrArg Duty.waiting hduty
  have hdeleted : s.mem.tag.uncommit.deleted = s.mem.tag.deleted := by
    simp [Tag.uncommit, hcommitted]
  refine ⟨{ hi with
      deleted := fun h => hi.deleted (hdeleted ▸ h)
      committed := fun hne => absurd ((hi.waiting hne).symm.trans hwaiting) (by rintro ⟨⟩)
      pending := fun h hne => hi.pending (hdeleted ▸ h) hne }, { Guar.refl w w s with
      duty := fun u hu => by simp [duty, hu]
      deleted := fun h => hdeleted.trans h
      deleting := fun u hu h => ⟨h, hdeleted⟩ }, ?_⟩
  refine .trans (b := { duty w s w with committed := false }) ?_ ?_
  · simp [duty, Tag.uncommit, hcommitted]
  · rw [hduty]
    rfl

theorem spec_eventTimerCancelGeneration {generation : ℕ} :
    Spec w k first t (At (κ := κ) w t d) (eventTimerCancelGeneration t generation) fun _ =>
      At w t d := by
  unfold eventTimerCancelGeneration
  split
  · exact .bind spec_publish fun _ => .skip stable_at
  · exact .skip stable_at

theorem spec_ioSleep {usTimeout : ℕ} :
    Spec w k first w (At w w .inCall) (ioSleep w k usTimeout) fun _ => At w w .inCall := by
  refine .bind spec_isDeleting fun deleting => ?_
  split
  · exact .skip stable_at
  refine .bind spec_consumeCredit fun done => ?_
  split
  · exact .skip stable_at
  refine .bind spec_publish fun generation => ?_
  split
  · exact .skip stable_at
  refine .bind (spec_eventInstallWaiter rfl) fun installed => ?_
  cases installed with
  | true =>
    exact .bind (.post spec_coroutineYield fun _ _ _ hs => hs) fun _ =>
      .bind spec_eventFinishWaiter fun _ => spec_eventTimerCancelGeneration
  | false => exact spec_eventTimerCancelGeneration

theorem spec_ioWaitUserEvent :
    Spec w k first w (At w w .inCall) (ioWaitUserEvent w k) fun _ => At w w .inCall := by
  refine .bind spec_isDeleting fun deleting => ?_
  split
  · exact .skip stable_at
  refine .bind (spec_eventInstallWaiter rfl) fun installed => ?_
  cases installed with
  | true =>
    exact .bind (.post spec_coroutineYield fun _ _ _ hs => hs) fun _ => spec_eventFinishWaiter
  | false => exact .skip stable_at

theorem spec_consumeDoorbell :
    Spec w k first t (At (κ := κ) w t d) (consumeDoorbell t) fun _ =>
      At w t { d with busy := d.busy + 1, consumed := d.consumed + 1 } := by
  refine .act stable_at (fun _ => stable_at) fun s x s' heq hi hs => ?_
  obtain rfl : duty w s t = d := hs
  split at heq
  · cases heq
    have hinside := hi.inside
    refine ⟨{ hi with
        inside := by grind
        pending := fun hdeleted hne => ?_ }, { Guar.refl w t s with
        duty := fun u hu => by simp [duty, hu.symm] },
      by simp [At, duty]⟩
    rcases hi.pending hdeleted hne with h | h | h | h
    · exact .inl h
    · exact .inr (.inl h)
    · exact .inr (.inr (.inl h))
    · exact .inr (.inr (.inr ⟨h.1, .inr (.inr (by rintro ⟨⟩))⟩))
  · cases heq

end Cancellation

end UserEvent

end Asyncio
